import Folio.Proofs.Text.Trim

/-!
# Words

A text is cut into words at its blanks, however many of them stand between two words or around them. So the
words are told by any way to see the text as blanks and words in turn.
-/
namespace Folio.Text
variable {t u : Text} {c : Char} {gap : Text} {ws : List Text}

/-- The text consists of these words, with blanks between them and perhaps around them. -/
inductive HasWords : List Text → Text → Prop where
  | blanks {gap : Text} (hgap : ∀ c ∈ gap, isBlank c = true) : HasWords [] gap
  | word {gap word rest : Text} {ws : List Text} (hgap : ∀ c ∈ gap, isBlank c = true) (hne : word ≠ [])
    (hword : ∀ c ∈ word, isBlank c = false) (hrest : ∀ c ∈ rest.head?, isBlank c = true)
    (h : HasWords ws rest) : HasWords (word :: ws) (gap ++ word ++ rest)

theorem words_append_blank (t u : Text) (h : isBlank c = true) : words (t ++ c :: u) = words t ++ words u := by
  rw [words, List.splitOnP_append_cons t u h, List.filter_append]
  rfl

theorem words_cons_blank (t : Text) (h : isBlank c = true) : words (c :: t) = words t :=
  words_append_blank [] t h

theorem words_blanks_append (t : Text) (hgap : ∀ c ∈ gap, isBlank c = true) : words (gap ++ t) = words t := by
  induction gap with
  | nil => rfl
  | cons c gap ih =>
    obtain ⟨hc, hgap⟩ := List.forall_mem_cons.1 hgap
    rw [List.cons_append, words_cons_blank _ hc, ih hgap]

theorem words_of_blanks (hgap : ∀ c ∈ gap, isBlank c = true) : words gap = [] := by
  have hnil := words_blanks_append [] hgap
  rw [List.append_nil] at hnil
  exact hnil

theorem words_append_blanks (t : Text) (hgap : ∀ c ∈ gap, isBlank c = true) : words (t ++ gap) = words t := by
  cases gap with
  | nil => rw [List.append_nil]
  | cons c gap =>
    obtain ⟨hc, hgap⟩ := List.forall_mem_cons.1 hgap
    rw [words_append_blank t gap hc, words_of_blanks hgap, List.append_nil]

theorem words_of_word (hne : t ≠ []) (h : ∀ c ∈ t, isBlank c = false) : words t = [t] := by
  rw [words, List.splitOnP_eq_singleton h]
  simp [hne]

theorem words_trimEnd (t : Text) : words (trimEnd t) = words t := by
  obtain ⟨gap, ht, hgap⟩ := exists_blanks_trimEnd t
  have hwords := words_append_blanks (trimEnd t) hgap
  rw [← ht] at hwords
  exact hwords.symm

theorem HasWords.words_eq (h : HasWords ws t) : words t = ws := by
  induction h with
  | blanks hgap => exact words_of_blanks hgap
  | @word gap word rest ws hgap hne hword hrest _ ih =>
    rw [List.append_assoc, words_blanks_append _ hgap]
    cases rest with
    | nil =>
      rw [List.append_nil, words_of_word hne hword, ← ih]
      rfl
    | cons c rest =>
      have hc : isBlank c = true := hrest c rfl
      rw [words_append_blank word rest hc, words_of_word hne hword, ← ih, words_cons_blank rest hc,
        List.singleton_append]

theorem HasWords.cons_blank (h : HasWords ws t) (hc : isBlank c = true) : HasWords ws (c :: t) := by
  cases h with
  | blanks hgap => exact .blanks (List.forall_mem_cons.2 ⟨hc, hgap⟩)
  | word hgap hne hword hrest h => exact .word (List.forall_mem_cons.2 ⟨hc, hgap⟩) hne hword hrest h

/-- A character that is no blank begins a word of its own or is put in front of the first word. -/
theorem HasWords.exists_cons (h : HasWords ws t) (hc : isBlank c = false) : ∃ ws', HasWords ws' (c :: t) := by
  have hone : ∀ ws, HasWords ws t → (∀ d ∈ t.head?, isBlank d = true) → HasWords ([c] :: ws) (c :: t) :=
    fun ws h hrest => @HasWords.word [] [c] t ws (by simp) (List.cons_ne_nil _ _) (by simpa using hc) hrest h
  have hws := h
  cases h with
  | blanks hgap => exact ⟨_, hone _ hws fun d hd => hgap d (List.mem_of_mem_head? hd)⟩
  | @word gap word rest ws hgap hne hword hrest h =>
    cases gap with
    | nil =>
      have hlonger : ∀ d ∈ c :: word, isBlank d = false := List.forall_mem_cons.2 ⟨hc, hword⟩
      exact ⟨_, @HasWords.word [] (c :: word) rest ws hgap (List.cons_ne_nil c word) hlonger hrest h⟩
    | cons d gap => exact ⟨_, hone _ hws fun e he => Option.some.inj he ▸ hgap d List.mem_cons_self⟩

theorem words_eq_iff : words t = ws ↔ HasWords ws t := by
  refine ⟨?_, HasWords.words_eq⟩
  rintro rfl
  obtain ⟨ws, h⟩ : ∃ ws, HasWords ws t := by
    induction t with
    | nil => exact ⟨[], .blanks (by simp)⟩
    | cons c t ih =>
      obtain ⟨ws, h⟩ := ih
      cases hc : isBlank c with
      | true => exact ⟨ws, h.cons_blank hc⟩
      | false => exact h.exists_cons hc
  rw [h.words_eq]
  exact h

end Folio.Text
