import Folio.Proofs.Glob.Escape
import Folio.Proofs.Rule.Segments
import Mathlib.Data.List.TakeWhile

/-!
# Rules with stars

No stars make a rule invalid. In the glob of a rule two stars in a row are all that stands between two
slashes, so the only fault that reading it can find is a bracket that opens no class, and a bracket behind a
backslash always opens one.
-/
namespace Folio

namespace Glob
variable {t after front rest whole : Text} {s : Single} {fresh : Bool} {position : Nat} {fault : SyntaxFault}
  {names : List Text}

theorem exists_of_readClass? (h : readClass? t = some (s, after)) : ∃ inner, t = inner ++ ']' :: after := by
  unfold readClass? at h
  split at h
  next c rest =>
    obtain ⟨⟨inner, tail⟩, hcut, he⟩ := Option.map_eq_some_iff.1 h
    cases he
    exact ⟨'!' :: c :: inner, by simp [Text.eq_append_of_cutAt? hcut]⟩
  · cases h
  next c rest _ _ =>
    obtain ⟨⟨inner, tail⟩, hcut, he⟩ := Option.map_eq_some_iff.1 h
    cases he
    exact ⟨c :: inner, by simp [Text.eq_append_of_cutAt? hcut]⟩
  · cases h

/-- Two stars in a row are all that stands between two slashes, or between a slash and an end of the text. -/
def StarsAlone (t : Text) : Prop := ∀ front rest, t = front ++ '*' :: '*' :: rest →
  (front = [] ∨ front.getLast? = some '/') ∧ (rest = [] ∨ rest.head? = some '/')

theorem starsAlone_intercalate (hn : ∀ n ∈ names, n = ['*', '*'] ∨ ¬ ['*', '*'] <:+: n) :
    StarsAlone (['/'].intercalate names) := by
  induction names with
  | nil =>
    intro front rest h
    simp at h
  | cons n names ih =>
    have hfirst (front rest : Text) (h : n = front ++ '*' :: '*' :: rest) : front = [] ∧ rest = [] := by
      rcases hn n (by simp) with he | he
      · rw [he] at h
        have hlength := congrArg List.length h
        simp only [List.length_append, List.length_cons, List.length_nil] at hlength
        exact ⟨List.length_eq_zero_iff.1 (by omega), List.length_eq_zero_iff.1 (by omega)⟩
      · exact absurd ⟨front, rest, by simp [h]⟩ he
    intro front rest h
    by_cases hne : names = []
    · subst hne
      obtain ⟨rfl, rfl⟩ := hfirst front rest (by simpa using h)
      exact ⟨.inl rfl, .inl rfl⟩
    · rw [Text.intercalate_cons hne, List.append_eq_append_iff] at h
      rcases h with ⟨more, rfl, h⟩ | ⟨more, hfront, h⟩
      · -- the stars stand behind the first slash
        cases more with
        | nil => cases h
        | cons c more =>
          simp only [List.cons_append, List.cons.injEq] at h
          obtain ⟨rfl, h⟩ := h
          obtain ⟨hmore, hrest⟩ := ih (fun m hm => hn m (by simp [hm])) more rest h
          refine ⟨.inr ?_, hrest⟩
          rcases hmore with rfl | hmore
          · simp
          · simp [List.getLast?_append, List.getLast?_cons, hmore]
      · -- the stars stand in front of it
        match more with
        | [] => cases h
        | [c] => cases h
        | c :: d :: more =>
          simp only [List.cons_append, List.cons.injEq] at h
          obtain ⟨rfl, rfl, rfl⟩ := h
          obtain ⟨rfl, rfl⟩ := hfirst front more hfront
          exact ⟨.inl rfl, .inr rfl⟩

/-- Where stars stand alone, a text is refused only for a bracket that opens no class. Reading keeps track of
whether a name begins, so it never takes two stars for a part of a name. -/
theorem openClass_of_parseFrom (hstars : StarsAlone whole) (hwhole : whole = front ++ t)
    (hposition : position = front.length) (hfresh : front = [] ∨ front.getLast? = some '/' → fresh = true)
    (h : parseFrom position fresh t = .error fault) :
    fault.fault = .openClass ∧ ∃ before rest, whole = before ++ '[' :: rest ∧
      before.length = fault.position ∧ readClass? rest = none := by
  fun_induction parseFrom position fresh t generalizing front with
  | case1 => cases h
  | case2 position fresh rest =>
    have hrest := (hstars front ('*' :: rest) hwhole).2
    simp at hrest
  | case3 position rest ih =>
    have hread : whole = (front ++ ['*', '*', '/']) ++ rest := by simp [hwhole]
    exact ih hread (by simp [hposition]) (fun _ => rfl) (map_eq_error_iff.1 h)
  | case4 position fresh rest hnot => exact absurd (hfresh (hstars front ('/' :: rest) hwhole).1) hnot
  | case5 => cases h
  | case6 position fresh hnot => exact absurd (hfresh (hstars front [] hwhole).1) hnot
  | case7 position fresh rest _ hslash hend =>
    rcases (hstars front rest hwhole).2 with hnil | hhead
    · exact absurd hnil hend
    · obtain ⟨more, hmore⟩ := List.head?_eq_some_iff.1 hhead
      exact absurd hmore (hslash more)
  | case8 position fresh rest _ _ _ _ ih =>
    have hread : whole = (front ++ ['*']) ++ rest := by simp [hwhole]
    exact ih hread (by simp [hposition]) (by simp) (map_eq_error_iff.1 h)
  | case9 position fresh rest ih =>
    have hread : whole = (front ++ ['?']) ++ rest := by simp [hwhole]
    exact ih hread (by simp [hposition]) (by simp) (map_eq_error_iff.1 h)
  | case10 position fresh rest s after hclass hlength ih =>
    obtain ⟨inner, rfl⟩ := exists_of_readClass? hclass
    have hread : whole = (front ++ '[' :: (inner ++ [']'])) ++ after := by simp [hwhole]
    apply ih hread ?_ ?_ (map_eq_error_iff.1 h)
    · simp only [List.length_append, List.length_cons, List.length_nil] at hlength ⊢
      omega
    · simp [List.getLast?_append, List.getLast?_cons]
  | case11 position fresh rest hclass =>
    cases h
    exact ⟨rfl, front, rest, hwhole, hposition.symm, hclass⟩
  | case12 position fresh c rest _ _ _ _ _ _ _ ih =>
    have hread : whole = (front ++ [c]) ++ rest := by simp [hwhole]
    exact ih hread (by simp [hposition]) (by simp) (map_eq_error_iff.1 h)

end Glob

namespace Segment
open Glob
variable {s a b pattern : Text} {segments : List Text}

theorem not_infix_spellSegment : ¬ ['*', '*'] <:+: Rule.spellSegment s := by
  fun_induction Rule.spellSegment s with
  | case1 => simp
  | case2 => simp
  | case3 c rest hc ih => simp [List.infix_cons_iff, ih]
  | case4 c rest hc ih =>
    have hstar : c ≠ '*' := fun he => hc (by simp [he, Rule.isSpecial])
    simp [List.infix_cons_iff, ih, Ne.symm hstar]
  | case5 rest ih => simp [List.infix_cons_iff, ih]
  | case6 rest ih => exact ih
  | case7 c rest _ _ _ hstars ih =>
    rw [List.infix_cons_iff]
    rintro (h | h)
    · obtain ⟨rfl, more, hmore⟩ := List.cons_prefix_cons.1 h
      have hrest : rest.head? ≠ some '*' := by
        intro hh
        obtain ⟨more, rfl⟩ := List.head?_eq_some_iff.1 hh
        exact hstars more rfl rfl
      exact head?_spellSegment_ne hrest (hmore ▸ rfl)
    · exact ih h

theorem starsAlone_spell (pattern : Text) : StarsAlone (Rule.spell pattern) := by
  apply starsAlone_intercalate
  intro n hn
  obtain ⟨s, -, rfl⟩ := List.mem_map.1 hn
  by_cases ha : s = Rule.anyDirectories
  · subst ha
    exact .inl rfl
  · rw [if_neg ha]
    exact .inr not_infix_spellSegment

theorem opensClass_append_slash : opensClass (a ++ '/' :: b) = (opensClass a || opensClass b) := by
  fun_induction opensClass a with
  | case1 => rfl
  | case2 c rest ih => exact ih
  | case3 c rest hc ih =>
    by_cases hback : c = '\\'
    · have hrest : rest = [] := by
        cases rest with
        | nil => rfl
        | cons d rest => exact (hc d rest hback rfl).elim
      subst hback hrest
      simp [opensClass]
    · rw [List.cons_append, opensClass_cons hback, ih, Bool.or_assoc]

theorem opensClass_intercalate : opensClass (['/'].intercalate segments) = segments.any opensClass := by
  induction segments with
  | nil => rfl
  | cons s segments ih =>
    by_cases hne : segments = []
    · simp [hne]
    · rw [Text.intercalate_cons hne, opensClass_append_slash, ih, List.any_cons]

theorem opensClass_dropWhile : opensClass (a.dropWhile (· = '/')) = opensClass a := by
  induction a with
  | nil => rfl
  | cons c a ih =>
    by_cases hc : c = '/'
    · subst hc
      rw [List.dropWhile_cons_of_pos (by simp), ih, opensClass_cons (by decide)]
      rfl
    · rw [List.dropWhile_cons_of_neg (by simpa using hc)]

end Segment

namespace Rule
open Glob
variable {text : Text}

/-- The marks of a rule open no class and close none. -/
theorem opensClass_pattern : Segment.opensClass (parts text).pattern = Segment.opensClass text := by
  have hmark : Segment.opensClass ((Text.afterFirst? '!' text).getD text) = Segment.opensClass text := by
    cases hm : Text.afterFirst? '!' text with
    | none => rfl
    | some rest =>
      rw [Text.afterFirst?_eq_some_iff.1 hm, Segment.opensClass_cons (by decide)]
      rfl
  rw [parts, Segment.opensClass_dropWhile, ← hmark]
  cases hl : Text.beforeLast? '/' ((Text.afterFirst? '!' text).getD text) with
  | none => rfl
  | some rest =>
    rw [Text.beforeLast?_eq_some_iff.1 hl, Segment.opensClass_append_slash]
    simp [Segment.opensClass]

theorem pattern_eq_nil_iff :
    (parts text).pattern = [] ↔ ∀ c ∈ (Text.afterFirst? '!' text).getD text, c = '/' := by
  rw [parts, List.dropWhile_eq_nil_iff]
  cases hl : Text.beforeLast? '/' ((Text.afterFirst? '!' text).getD text) with
  | none => simp
  | some rest =>
    rw [Text.beforeLast?_eq_some_iff.1 hl]
    simp [or_imp]

theorem compile_eq_empty_iff : compile text = .error .empty ↔ (parts text).pattern = [] := by
  rw [compile]
  by_cases h : (parts text).pattern = []
  · simp [h]
  · cases parse (spell (parts text).pattern) <;> simp [h]

theorem compile_eq_glob {fault : SyntaxFault} (h : compile text = .error (.glob fault)) :
    parse (globText text) = .error fault := by
  unfold compile at h
  simp only at h
  split at h
  · cases h
  · split at h
    · cases h
    next hparse =>
      cases h
      exact hparse

/-- A rule is refused only if it has nothing but slashes, or for a bracket that opens no class in its glob.
Its stars are never at fault, and a rule whose brackets are all escaped is not refused for them. -/
theorem compile_stars (text : Text) :
    (compile text = .error .empty ↔ ∀ c ∈ (Text.afterFirst? '!' text).getD text, c = '/') ∧
      (∀ fault, compile text = .error (.glob fault) → fault.fault = .openClass ∧
        ∃ front rest, globText text = front ++ '[' :: rest ∧ front.length = fault.position ∧
          readClass? rest = none) ∧
      (Segment.opensClass text = false →
        (∃ c ∈ (Text.afterFirst? '!' text).getD text, c ≠ '/') → ∃ rule, compile text = .ok rule) := by
  refine ⟨compile_eq_empty_iff.trans pattern_eq_nil_iff, ?_, ?_⟩
  · intro fault h
    exact openClass_of_parseFrom (Segment.starsAlone_spell (parts text).pattern) (List.nil_append _).symm rfl
      (fun _ => rfl) (compile_eq_glob h)
  · intro hopen hne
    have hpattern : (parts text).pattern ≠ [] := by
      rw [Ne, pattern_eq_nil_iff]
      simpa using hne
    have hsegments : ∀ s ∈ (parts text).pattern.splitOn '/', Segment.opensClass s = false := by
      have hany : Segment.opensClass (['/'].intercalate ((parts text).pattern.splitOn '/')) = _ :=
        Segment.opensClass_intercalate
      rw [List.intercalate_splitOn, opensClass_pattern, hopen] at hany
      simpa using hany.symm
    have hparse : parse (spell (parts text).pattern) =
        .ok (Segment.allTokens ((parts text).pattern.splitOn '/')) := Segment.reads_spelling hsegments 0
    unfold compile
    simp [hpattern, hparse]

theorem compile_stars_mixed :
    let text := "!/a***b/**/\\[**c*\\**/".toList
    Segment.opensClass text = false ∧ (∃ c ∈ (Text.afterFirst? '!' text).getD text, c ≠ '/') ∧
      ∃ rule, compile text = .ok rule := by
  intro text
  have hopen : Segment.opensClass text = false := by decide
  have hne : ∃ c ∈ (Text.afterFirst? '!' text).getD text, c ≠ '/' := ⟨'a', by decide, by decide⟩
  exact ⟨hopen, hne, (compile_stars text).2.2 hopen hne⟩

end Rule
end Folio
