import Folio.Markup.Attribute
import Folio.Markup.CharacterData
import Folio.Proofs.Text.Pieces

/-!
# Reading markup

Attribute values and character data are read character by character, without a look at how they were
written. Both readers give back what was written, and the rest of the text.
-/
namespace Folio.Markup

namespace Attribute

def unescape : Text → Text
  | [] => []
  | '&' :: 'l' :: 't' :: ';' :: rest => '<' :: unescape rest
  | '&' :: 'g' :: 't' :: ';' :: rest => '>' :: unescape rest
  | '&' :: 'a' :: 'm' :: 'p' :: ';' :: rest => '&' :: unescape rest
  | '&' :: 'a' :: 'p' :: 'o' :: 's' :: ';' :: rest => '\x27' :: unescape rest
  | '&' :: 'q' :: 'u' :: 'o' :: 't' :: ';' :: rest => '"' :: unescape rest
  | c :: rest => c :: unescape rest

theorem unescape_cons {c : Char} (hc : c ≠ '&') (t : Text) : unescape (c :: t) = c :: unescape t := by
  rw [unescape.eq_def]
  split <;> simp_all

theorem unescape_entity (c : Char) (t : Text) : unescape (entity c ++ t) = c :: unescape t := by
  unfold entity
  split
  case h_6 hamp _ _ => exact unescape_cons hamp t
  all_goals simp [unescape]

theorem unescape_escape (t : Text) : unescape (escape t) = t := by
  induction t with
  | nil => rfl
  | cons c t ih => rw [escape_cons, unescape_entity, ih]

/-- The value in front of the next double quote, and the rest behind the quote. -/
def value? (t : Text) : Option (Text × Text) :=
  (Text.cutAt? '"' t).map fun (value, rest) => (unescape value, rest)

theorem value?_escape (t rest : Text) : value? (escape t ++ '"' :: rest) = some (t, rest) := by
  rw [value?, Text.cutAt?_append (quote_notMem_escape t), Option.map_some]
  simp only [unescape_escape]

theorem angle_notMem_escape (t : Text) : '<' ∉ escape t := by
  have hentity : ∀ c, '<' ∉ entity c := by
    intro c
    unfold entity
    split <;> simp_all [eq_comm]
  simp [escape, hentity]

def IsPlain (t : Text) : Prop := ∀ c ∈ t, entity c = [c]

theorem IsPlain.escape_eq {t : Text} (h : IsPlain t) : escape t = t := by
  induction t with
  | nil => rfl
  | cons c t ih =>
    rw [escape_cons, h c (by simp), ih fun d hd => h d (by simp [hd])]
    rfl

theorem IsPlain.append {s t : Text} (hs : IsPlain s) (ht : IsPlain t) : IsPlain (s ++ t) := by
  intro c hc
  exact (List.mem_append.1 hc).elim (hs c) (ht c)

theorem IsPlain.cons {c : Char} {t : Text} (hc : entity c = [c]) (ht : IsPlain t) :
    IsPlain (c :: t) := by
  intro d hd
  rcases List.mem_cons.1 hd with rfl | hd
  · exact hc
  · exact ht d hd

theorem entity_eq_of_isDigit {c : Char} (h : c.isDigit = true) : entity c = [c] := by
  unfold entity
  split
  case h_6 => rfl
  all_goals exact absurd h (by decide)

theorem isPlain_ofNat (n : Nat) : IsPlain (Text.ofNat n) := by
  intro c hc
  exact entity_eq_of_isDigit (Nat.isDigit_of_mem_toDigits (by decide) (by decide) hc)

end Attribute

namespace CharacterData

/-- No closing mark goes over a newline. -/
theorem escape_append_newline (s t : Text) : escape (s ++ '\n' :: t) = escape s ++ '\n' :: escape t := by
  fun_induction escape s with
  | case1 => simp [escape]
  | case2 s ih => simp [escape, ih]
  | case3 c s hc ih =>
    rw [List.cons_append, escape, ih, List.cons_append]
    intro r hfirst hrest
    cases s with
    | nil => simp at hrest
    | cons d s =>
      cases s with
      | nil => simp at hrest
      | cons e s =>
        simp only [List.cons_append, List.cons.injEq] at hrest
        exact hc s hfirst (by rw [hrest.1, hrest.2.1])

theorem getLast?_escape (t : Text) : (escape t).getLast? = t.getLast? := by
  fun_induction escape t with
  | case1 => rfl
  | case2 t ih => simp [List.getLast?_cons, List.getLast?_append, ih]
  | case3 c t hc ih => simp [List.getLast?_cons, ih]

theorem escape_eq_nil_iff {t : Text} : escape t = [] ↔ t = [] := by
  fun_cases escape t <;> simp_all

/-- The content of adjacent sections up to the first closing mark that no opening mark follows, and the
rest behind that mark. -/
def read? : Text → Option (Text × Text)
  | [] => none
  | ']' :: ']' :: '>' :: rest =>
    match _h : behind? opening rest with
    | some next => read? next
    | none => some ([], rest)
  | c :: rest => (read? rest).map fun (content, after) => (c :: content, after)
termination_by t => t.length
decreasing_by
  · rw [behind?_eq_some_iff.1 _h]
    simp only [List.length_cons, List.length_append]
    omega
  · simp

theorem closing_eq : closing = [']', ']', '>'] := rfl

theorem joint_eq : joint = ']' :: ']' :: '>' :: opening := rfl

theorem read?_joint (t : Text) : read? (joint ++ t) = read? t := by
  show read? (']' :: ']' :: '>' :: (opening ++ t)) = _
  rw [read?]
  split
  next rest h => cases (behind?_append opening t).symm.trans h; rfl
  next h => cases (behind?_append opening t).symm.trans h

theorem read?_closing {t : Text} (h : behind? opening t = none) :
    read? (closing ++ t) = some ([], t) := by
  show read? (']' :: ']' :: '>' :: t) = _
  rw [read?]
  split
  next rest hr => cases h.symm.trans hr
  next => rfl

theorem read?_cons {c : Char} {t : Text} (h : ∀ s, c :: t ≠ ']' :: ']' :: '>' :: s) :
    read? (c :: t) = (read? t).map fun (content, after) => (c :: content, after) := by
  rw [read?]
  intro s hc ht
  exact h s (by rw [hc, ht])

theorem exists_of_escape_angle {t rest s : Text} (h : escape t ++ (closing ++ rest) = '>' :: s) :
    ∃ r, t = '>' :: r := by
  fun_cases escape t with
  | case1 => simp [escape, closing_eq] at h
  | case2 t => simp [escape] at h
  | case3 c t hc =>
    rw [escape, List.cons_append] at h
    · exact ⟨t, congrArg (· :: t) (List.cons.inj h).1⟩
    · exact hc

/-- The mark behind escaped content makes no closing mark with the end of the content. -/
theorem exists_of_escape_bracket {t rest s : Text}
    (h : escape t ++ (closing ++ rest) = ']' :: '>' :: s) : ∃ r, t = ']' :: '>' :: r := by
  fun_cases escape t with
  | case1 => simp [escape, closing_eq] at h
  | case2 t => simp [escape] at h
  | case3 c t hc =>
    rw [escape, List.cons_append] at h
    · obtain ⟨hfirst, hrest⟩ := List.cons.inj h
      obtain ⟨r, hr⟩ := exists_of_escape_angle hrest
      exact ⟨r, by rw [hfirst, hr]⟩
    · exact hc

/-- Content is read back from its sections, whatever it holds. -/
theorem read?_escape (t : Text) {rest : Text} (h : behind? opening rest = none) :
    read? (escape t ++ (closing ++ rest)) = some (t, rest) := by
  fun_induction escape t with
  | case1 => exact read?_closing h
  | case2 t ih =>
    have hfirst : ∀ u s, ']' :: ']' :: (joint ++ u) ≠ ']' :: ']' :: '>' :: s := by
      simp [joint_eq]
    have hsecond : ∀ u s, ']' :: (joint ++ u) ≠ ']' :: ']' :: '>' :: s := by
      simp [joint_eq]
    simp only [List.cons_append, List.append_assoc]
    rw [read?_cons (hfirst _), read?_cons (hsecond _), read?_joint, read?_cons (by simp), ih]
    rfl
  | case3 c t hc ih =>
    rw [List.cons_append, read?_cons, ih]
    · rfl
    · intro s hs
      obtain ⟨hfirst, hrest⟩ := List.cons.inj hs
      obtain ⟨r, hr⟩ := exists_of_escape_bracket hrest
      exact hc r hfirst hr

end CharacterData
end Folio.Markup
