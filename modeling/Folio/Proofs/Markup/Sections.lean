import Folio.Proofs.Markup.Reading

/-!
# Adjacent sections

Escaped content holds closing marks only at its joints. Taking the joints out again, or reading the
sections that they separate one after another, gives back the content.
-/
namespace Folio.Markup.CharacterData
variable {s t : Text}

/-- The content of a section up to its closing mark, and the rest behind the mark. -/
def closed? : Text → Option (Text × Text)
  | [] => none
  | ']' :: ']' :: '>' :: rest => some ([], rest)
  | c :: rest => (closed? rest).map fun (content, after) => (c :: content, after)

def section? (t : Text) : Option (Text × Text) := (behind? opening t).bind closed?

theorem length_le_of_closed? {content rest : Text} (h : closed? t = some (content, rest)) :
    rest.length ≤ t.length := by
  fun_induction closed? t generalizing content with
  | case1 => cases h
  | case2 t =>
    cases h
    simp only [List.length_cons]
    omega
  | case3 c t _ ih =>
    obtain ⟨⟨inner, after⟩, hin, he⟩ := Option.map_eq_some_iff.1 h
    cases he
    have hle := ih hin
    simp only [List.length_cons]
    omega

theorem length_lt_of_section? {content rest : Text} (h : section? t = some (content, rest)) :
    rest.length < t.length := by
  obtain ⟨inner, hin, hc⟩ := Option.bind_eq_some_iff.1 h
  have hle := length_le_of_closed? hc
  have hopening : opening.length = 9 := rfl
  rw [behind?_eq_some_iff.1 hin, List.length_append]
  omega

/-- A section and all that follow it immediately: their contents in one text, and the rest behind the
last of them. -/
def sections? (t : Text) : Option (Text × Text) :=
  match _h : section? t with
  | none => none
  | some (content, rest) =>
    if opening <+: rest then (sections? rest).map fun (more, after) => (content ++ more, after)
    else some (content, rest)
termination_by t.length
decreasing_by exact length_lt_of_section? _h

theorem sections?_opening (t : Text) : sections? (opening ++ t) =
    (closed? t).bind fun (content, rest) =>
      if opening <+: rest then (sections? rest).map fun (more, after) => (content ++ more, after)
      else some (content, rest) := by
  have hsection : section? (opening ++ t) = closed? t := by
    rw [section?, behind?_append, Option.bind_some]
  rw [sections?]
  split
  next h => rw [← hsection, h, Option.bind_none]
  next h => rw [← hsection, h, Option.bind_some]

theorem sections?_closing (t : Text) : sections? (opening ++ (closing ++ t)) =
    if opening <+: t then sections? t else some ([], t) := by
  have hclosed : closed? (closing ++ t) = some ([], t) := rfl
  rw [sections?_opening, hclosed, Option.bind_some]
  simp

theorem sections?_cons {c : Char} (h : ∀ s, c :: t ≠ closing ++ s) :
    sections? (opening ++ c :: t) =
      (sections? (opening ++ t)).map fun (content, after) => (c :: content, after) := by
  have hclosed : closed? (c :: t) = (closed? t).map fun (content, after) => (c :: content, after) := by
    rw [closed?]
    intro s hc ht
    exact h s (by rw [hc, ht]; rfl)
  rw [sections?_opening, sections?_opening, hclosed, Option.bind_map, Option.map_bind]
  congr 1
  funext found
  obtain ⟨content, rest⟩ := found
  simp only [Function.comp]
  split
  · rw [Option.map_map]
    rfl
  · rfl

theorem behind?_opening_eq_none_iff : behind? opening t = none ↔ ¬ opening <+: t := by
  rw [Option.eq_none_iff_forall_ne_some]
  constructor
  · rintro h ⟨r, rfl⟩
    exact h r (behind?_append opening r)
  · intro h r hr
    exact h ⟨r, (behind?_eq_some_iff.1 hr).symm⟩

/-- Looking behind each closing mark for an opening one comes to the same as reading section by
section. -/
theorem sections?_eq_read? (t : Text) : sections? (opening ++ t) = read? t := by
  fun_induction read? t with
  | case1 => rw [sections?_opening]; rfl
  | case2 rest next h ih =>
    have hrest := behind?_eq_some_iff.1 h
    show sections? (opening ++ (closing ++ rest)) = _
    rw [sections?_closing, hrest, if_pos (List.prefix_append opening next), ih]
  | case3 rest h =>
    show sections? (opening ++ (closing ++ rest)) = _
    rw [sections?_closing, if_neg (behind?_opening_eq_none_iff.1 h)]
  | case4 c t h ih =>
    rw [sections?_cons, ih]
    intro s hs
    obtain ⟨hc, ht⟩ := List.cons.inj hs
    exact h s hc ht

theorem unescape_nil : unescape [] = [] := by
  rw [unescape]
  rfl

theorem unescape_joint (t : Text) : unescape (joint ++ t) = unescape t := by
  rw [unescape]
  split
  next rest h => rw [← Option.some.inj ((behind?_append joint t).symm.trans h)]
  next h => cases (behind?_append joint t).symm.trans h

theorem unescape_cons {c : Char} (h : ∀ s, c :: t ≠ joint ++ s) :
    unescape (c :: t) = c :: unescape t := by
  rw [unescape]
  split
  next rest hr => exact absurd (behind?_eq_some_iff.1 hr) (h rest)
  next => rfl

theorem cons_escape_ne_closing {c : Char} (h : ∀ s, c = ']' → t = ']' :: '>' :: s → False) (s : Text) :
    c :: escape t ≠ closing ++ s := by
  intro hs
  obtain ⟨hc, ht⟩ := List.cons.inj hs
  have hbracket : escape t ++ (closing ++ []) = ']' :: '>' :: (s ++ (closing ++ [])) := by rw [ht]; rfl
  obtain ⟨r, hr⟩ := exists_of_escape_bracket hbracket
  exact h r hc hr

theorem unescape_escape (t : Text) : unescape (escape t) = t := by
  fun_induction escape t with
  | case1 => exact unescape_nil
  | case2 t ih =>
    rw [unescape_cons, unescape_cons, unescape_joint, unescape_cons, ih]
    all_goals simp [joint_eq]
  | case3 c t h ih =>
    rw [unescape_cons, ih]
    intro s hs
    exact cons_escape_ne_closing h (opening ++ s) hs

/-- No closing mark begins where no bracket stands. -/
theorem suffix_of_suffix_append {p u : Text} (hp : ']' ∉ p) (h : closing ++ u <:+ p ++ t) :
    closing ++ u <:+ t := by
  induction p with
  | nil => exact h
  | cons c p ih =>
    rcases List.suffix_cons_iff.1 h with he | h
    · have hc : c = ']' := (List.cons.inj he).1.symm
      exact absurd (hc ▸ List.mem_cons_self) hp
    · exact ih (fun hm => hp (List.mem_cons_of_mem c hm)) h

theorem opening_prefix_of_suffix_escape {u : Text} (h : closing ++ u <:+ escape t) : opening <+: u := by
  fun_induction escape t with
  | case1 => exact absurd (List.suffix_nil.1 h) (List.cons_ne_nil _ _)
  | case2 t ih =>
    -- of the four brackets in a row only the last two have an angle behind them
    have hsplit : closing ++ u <:+ ']' :: ']' :: ']' :: ']' :: '>' :: (opening ++ '>' :: escape t) := h
    rcases List.suffix_cons_iff.1 hsplit with he | hsplit
    · simp [closing_eq] at he
    rcases List.suffix_cons_iff.1 hsplit with he | hsplit
    · simp [closing_eq] at he
    rcases List.suffix_cons_iff.1 hsplit with he | hsplit
    · exact ⟨_, (List.append_cancel_left he).symm⟩
    rcases List.suffix_cons_iff.1 hsplit with he | hsplit
    · simp [closing_eq] at he
    have hbare : ']' ∉ '>' :: (opening ++ ['>']) := by decide
    refine ih (suffix_of_suffix_append hbare ?_)
    rw [List.cons_append, List.append_assoc]
    exact hsplit
  | case3 c t hc ih =>
    rcases List.suffix_cons_iff.1 h with he | h
    · exact absurd he.symm (cons_escape_ne_closing hc u)
    · exact ih h

/-- Escaping can be undone, and what it writes can stand between the marks of a section: each closing mark
in it has an opening mark right behind it, and reading the sections up to the first text that is no
section gives back the content and that text. -/
theorem escape_roundTrip (t : Text) :
    unescape (escape t) = t ∧
      (∀ front back, escape t = front ++ closing ++ back → opening <+: back) ∧
      ∀ rest, ¬ opening <+: rest →
        sections? (opening ++ escape t ++ closing ++ rest) = some (t, rest) := by
  refine ⟨unescape_escape t, ?_, ?_⟩
  · intro front back h
    apply opening_prefix_of_suffix_escape
    exact ⟨front, by rw [h, List.append_assoc]⟩
  · intro rest h
    rw [List.append_assoc, List.append_assoc, sections?_eq_read?]
    exact read?_escape t (behind?_opening_eq_none_iff.2 h)

/-- The content is a closing mark between the halves of another one, and text follows that only looks like
an opening mark. -/
theorem escape_roundTrip_nested :
    let t := "]]]>]]>>".toList
    let rest := "<![CDATA".toList
    escape t = "]]]]]><![CDATA[>]]]]><![CDATA[>>".toList ∧ unescape (escape t) = t ∧
      ¬ opening <+: rest ∧ sections? (opening ++ escape t ++ closing ++ rest) = some (t, rest) := by
  intro t rest
  obtain ⟨hback, -, hread⟩ := escape_roundTrip t
  have hrest : ¬ opening <+: rest := by decide
  exact ⟨by decide, hback, hrest, hread rest hrest⟩

end Folio.Markup.CharacterData
