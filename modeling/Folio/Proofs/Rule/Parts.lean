import Folio.Rule.Basic
import Folio.Proofs.Text.Pieces

/-!
# Marks of rule texts

What taking the marks off a rule text leaves, and the directories on the way to a path by their names.
-/
namespace Folio.Rule
variable {t : Text} {names : List Text}

theorem dropWhile_slash (ht : t.head? ≠ some '/') : t.dropWhile (· = '/') = t := by
  cases t with
  | nil => rfl
  | cons c t =>
    have hc : c ≠ '/' := by simpa using ht
    simp [hc]

theorem head?_beforeLast_ne (ht : t.head? ≠ some '/') :
    ((Text.beforeLast? '/' t).getD t).head? ≠ some '/' := by
  cases hb : Text.beforeLast? '/' t with
  | none => exact ht
  | some front =>
    rw [Text.beforeLast?_eq_some_iff] at hb
    subst hb
    cases front with
    | nil => simp at ht
    | cons c front => simpa using ht

theorem parts_mark (negated : Bool) (hm : t.head? ≠ some '!') (hs : t.head? ≠ some '/') :
    parts ((if negated then ['!'] else []) ++ t) =
      ⟨negated, t.getLast? = some '/', (Text.beforeLast? '/' t).getD t⟩ := by
  have hrest : Text.afterFirst? '!' t = none := Text.afterFirst?_eq_none_iff.2 hm
  cases negated with
  | false => simp [parts, hrest, hm, dropWhile_slash (head?_beforeLast_ne hs)]
  | true => simp [parts, Text.afterFirst?, dropWhile_slash (head?_beforeLast_ne hs)]

theorem parts_mark_slash (negated : Bool) (slash : Prop) [Decidable slash] (hm : t.head? ≠ some '!')
    (hs : t.head? ≠ some '/') (hl : t.getLast? ≠ some '/') (hne : t ≠ []) :
    parts ((if negated then ['!'] else []) ++ (t ++ if slash then ['/'] else [])) =
      ⟨negated, slash, t⟩ := by
  by_cases h : slash
  · have hhead : (t ++ ['/']).head? = t.head? := by
      cases t with
      | nil => exact absurd rfl hne
      | cons c t => rfl
    rw [if_pos h, parts_mark negated (hhead ▸ hm) (hhead ▸ hs), Text.beforeLast?_append]
    simp [h]
  · rw [if_neg h, List.append_nil, parts_mark negated hm hs]
    simp [h, hl, Text.beforeLast?]

theorem mem_ancestors_intercalate (hn : ∀ n ∈ names, '/' ∉ n) (he : [] ∉ names) :
    t ∈ ancestors (['/'].intercalate names) ↔ ∃ front back, front ≠ [] ∧ back ≠ [] ∧
      names = front ++ back ∧ t = ['/'].intercalate front := by
  rw [mem_ancestors]
  constructor
  · intro h
    obtain ⟨-, r, hr⟩ := h
    obtain ⟨front, back, hf, hb, rfl, rfl, -⟩ := (Text.intercalate_eq_append_iff hn).1 hr
    exact ⟨front, back, hf, hb, rfl, rfl⟩
  · intro h
    obtain ⟨front, back, hf, hb, rfl, rfl⟩ := h
    have hfe : [] ∉ front := fun hm => he (by simp [hm])
    exact ⟨fun h => hf ((Text.intercalate_eq_nil_iff hfe).1 h), ['/'].intercalate back,
      Text.intercalate_append hf hb⟩

end Folio.Rule
