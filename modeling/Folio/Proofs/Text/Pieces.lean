import Folio.Text.Basic

/-!
# Pieces of a text

Pieces without a mark in them, and the text that they make with the mark between them. A mark in such a
text parts the pieces into those in front of it and those behind it.
-/
namespace Folio.Text
variable {α : Type} {c : α} {names front back : List (List α)}

theorem intercalate_cons {n : List α} (hn : names ≠ []) :
    [c].intercalate (n :: names) = n ++ c :: [c].intercalate names := by
  simp [List.intercalate_cons_of_ne_nil hn]

theorem mem_intercalate {d : α} (h : d ∈ [c].intercalate names) :
    d = c ∨ ∃ n ∈ names, d ∈ n := by
  induction names with
  | nil => simp at h
  | cons n names ih =>
    by_cases hn : names = []
    · subst hn
      exact .inr ⟨n, by simp, by simpa using h⟩
    · rw [intercalate_cons hn, List.mem_append, List.mem_cons] at h
      rcases h with h | h | h
      · exact .inr ⟨n, by simp, h⟩
      · exact .inl h
      · exact (ih h).imp_right fun ⟨m, hm, hd⟩ => ⟨m, by simp [hm], hd⟩

theorem intercalate_append (hf : front ≠ []) (hb : back ≠ []) :
    [c].intercalate (front ++ back) = [c].intercalate front ++ c :: [c].intercalate back := by
  induction front with
  | nil => exact absurd rfl hf
  | cons n front ih =>
    cases front with
    | nil => simp [intercalate_cons hb]
    | cons m front =>
      have hm := ih (by simp)
      simp only [List.cons_append] at hm ⊢
      simp [hm]

theorem head?_intercalate_cons {n : List α} (hn : n ≠ []) :
    ([c].intercalate (n :: names)).head? = n.head? := by
  obtain ⟨d, n, rfl⟩ := List.exists_cons_of_ne_nil hn
  cases names with
  | nil => simp
  | cons m names => simp

theorem intercalate_eq_nil_iff (hn : [] ∉ names) : [c].intercalate names = [] ↔ names = [] := by
  constructor
  · intro h
    cases names with
    | nil => rfl
    | cons n names =>
      cases names with
      | nil => simp_all
      | cons m names => simp at h
  · intro he
    subst he
    rfl

variable [DecidableEq α]

theorem notMem_of_mem_splitOn {t w : List α} (h : w ∈ t.splitOn c) : c ∉ w := by
  induction t generalizing w with
  | nil => simp_all
  | cons d t ih =>
    rw [List.splitOn_cons_eq_if_modifyHead] at h
    split at h
    · rcases List.mem_cons.1 h with rfl | h
      · simp
      · exact ih h
    next hd =>
      obtain ⟨first, others, hf⟩ := List.exists_cons_of_ne_nil (List.splitOn_ne_nil c t)
      simp only [hf, List.modifyHead_cons, List.mem_cons] at h
      rcases h with rfl | h
      · have hc : c ∉ first := ih (by simp [hf])
        have hcd : c ≠ d := fun he => hd (by simp [he])
        simp [hc, hcd]
      · exact ih (by simp [hf, h])

theorem subset_of_mem_splitOn {t w : List α} (h : w ∈ t.splitOn c) : w ⊆ t := by
  induction t generalizing w with
  | nil => simp_all
  | cons d t ih =>
    rw [List.splitOn_cons_eq_if_modifyHead] at h
    split at h
    · rcases List.mem_cons.1 h with rfl | h
      · simp
      · exact List.Subset.trans (ih h) (List.subset_cons_self d t)
    · obtain ⟨first, others, hf⟩ := List.exists_cons_of_ne_nil (List.splitOn_ne_nil c t)
      simp only [hf, List.modifyHead_cons, List.mem_cons] at h
      rcases h with rfl | h
      · exact List.cons_subset_cons d (ih (by simp [hf]))
      · have hw : w ⊆ t := ih (by simp [hf, h])
        exact List.Subset.trans hw (List.subset_cons_self d t)

theorem intercalate_eq_append_iff {a b : List α} (hn : ∀ n ∈ names, c ∉ n) :
    [c].intercalate names = a ++ c :: b ↔ ∃ front back, front ≠ [] ∧ back ≠ [] ∧
      names = front ++ back ∧ a = [c].intercalate front ∧ b = [c].intercalate back := by
  constructor
  · intro h
    have hne : names ≠ [] := by
      intro he
      subst he
      simp at h
    refine ⟨a.splitOn c, b.splitOn c, List.splitOn_ne_nil c a, List.splitOn_ne_nil c b, ?_,
      (List.intercalate_splitOn c).symm, (List.intercalate_splitOn c).symm⟩
    rw [← List.splitOn_append_cons_self, ← h, List.splitOn_intercalate c hn hne]
  · intro h
    obtain ⟨front, back, hf, hb, rfl, rfl, rfl⟩ := h
    exact intercalate_append hf hb

theorem intercalate_cons_eq_iff {n name rest : List α} (hn : ∀ m ∈ n :: names, c ∉ m)
    (hc : c ∉ name) :
    [c].intercalate (n :: names) = name ++ c :: rest ↔
      names ≠ [] ∧ name = n ∧ rest = [c].intercalate names := by
  constructor
  · intro h
    have hs := congrArg (List.splitOn c) h
    rw [List.splitOn_intercalate c hn (by simp), List.splitOn_append_cons_self_of_not_mem hc] at hs
    obtain ⟨rfl, rfl⟩ := List.cons.inj hs
    simp
  · intro h
    obtain ⟨hne, rfl, rfl⟩ := h
    exact intercalate_cons hne

/-- A piece ends the text or stands in front of a mark, and it begins the text or stands behind one. -/
theorem mem_splitOn_iff {t n : List α} (hn : c ∉ n) : n ∈ t.splitOn c ↔
    ∃ q, (q = t ∨ ∃ rest, t = q ++ c :: rest) ∧ (q = n ∨ ∃ front, q = front ++ c :: n) := by
  constructor
  · intro h
    obtain ⟨front, back, hs⟩ := List.append_of_mem h
    have ht : t = [c].intercalate ((front ++ [n]) ++ back) := by
      rw [List.append_assoc, List.singleton_append, ← hs, List.intercalate_splitOn]
    refine ⟨[c].intercalate (front ++ [n]), ?_, ?_⟩
    · by_cases hb : back = []
      · exact .inl (by simp [ht, hb])
      · exact .inr ⟨[c].intercalate back, by rw [ht, intercalate_append (by simp) hb]⟩
    · by_cases hf : front = []
      · exact .inl (by simp [hf])
      · exact .inr ⟨[c].intercalate front, by simpa using intercalate_append hf (List.cons_ne_nil n [])⟩
  · intro h
    obtain ⟨q, hq, h⟩ := h
    have hmem : n ∈ q.splitOn c := by
      rcases h with rfl | ⟨front, rfl⟩
      · simp [List.splitOn_eq_singleton hn]
      · simp [List.splitOn_append_cons_self, List.splitOn_eq_singleton hn]
    rcases hq with rfl | ⟨rest, rfl⟩
    · exact hmem
    · rw [List.splitOn_append_cons_self]
      exact List.mem_append_left _ hmem

theorem getLast?_intercalate_ne (hn : ∀ n ∈ names, c ∉ n) (he : [] ∉ names) :
    ([c].intercalate names).getLast? ≠ some c := by
  intro h
  obtain ⟨front, hf⟩ := List.getLast?_eq_some_iff.1 h
  obtain ⟨first, last, -, hl, rfl, -, hb⟩ := (intercalate_eq_append_iff hn).1 hf
  have hle : [] ∉ last := fun hm => he (by simp [hm])
  exact hl ((intercalate_eq_nil_iff hle).1 hb.symm)

variable {c : Char}

theorem append_lt_append_iff {α : Type} [LT α] [Std.Irrefl fun x y : α => x < y] (stem a b : List α) :
    stem ++ a < stem ++ b ↔ a < b := by
  induction stem with
  | nil => simp
  | cons c stem ih => simp [ih]

theorem cutAt?_append {a b : Text} (h : c ∉ a) : cutAt? c (a ++ c :: b) = some (a, b) := by
  induction a with
  | nil => simp [cutAt?]
  | cons d a ih =>
    rw [List.mem_cons, not_or] at h
    simp [cutAt?, ih h.2, Ne.symm h.1]

theorem cutAt?_eq_some_iff {t a b : Text} : cutAt? c t = some (a, b) ↔ t = a ++ c :: b ∧ c ∉ a := by
  constructor
  · intro h
    refine ⟨eq_append_of_cutAt? h, ?_⟩
    induction t generalizing a with
    | nil => cases h
    | cons d t ih =>
      unfold cutAt? at h
      split at h
      · cases h
        simp
      next hd =>
        obtain ⟨⟨front, back⟩, hcut, he⟩ := Option.map_eq_some_iff.1 h
        cases he
        simp [ih hcut, Ne.symm hd]
  · intro h
    rw [h.1, cutAt?_append h.2]

end Folio.Text
