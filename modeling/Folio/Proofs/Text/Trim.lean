import Folio.Text.Blank
import Mathlib.Data.List.DropRight

/-!
# Trimmed texts

A trimmed text begins and ends in no blank, so that trimming it again changes nothing.
-/
namespace Folio.Text
variable {t : Text} {c : Char}

theorem trimEnd_eq_rdropWhile (t : Text) : trimEnd t = t.rdropWhile isBlank := rfl

theorem trimStart_eq_self (h : ∀ c ∈ t.head?, isBlank c = false) : trimStart t = t := by
  cases t with
  | nil => rfl
  | cons c t =>
    have hc : isBlank c = false := h c rfl
    simp [trimStart, hc]

theorem trimStart_cons (t : Text) (h : isBlank c = false) : trimStart (c :: t) = c :: t :=
  trimStart_eq_self (by simpa using h)

theorem trimStart_append {front : Text} (h : ∀ c ∈ front, isBlank c = true) (t : Text) :
    trimStart (front ++ t) = trimStart t :=
  List.dropWhile_append_of_pos h

theorem exists_blanks_trimStart (t : Text) :
    ∃ front, t = front ++ trimStart t ∧ ∀ c ∈ front, isBlank c = true :=
  ⟨t.takeWhile isBlank, List.takeWhile_append_dropWhile.symm, fun _ => List.mem_takeWhile_imp⟩

theorem isBlank_head_trimStart (h : (trimStart t).head? = some c) : isBlank c = false := by
  have hd := List.head?_dropWhile_not isBlank t
  rw [← trimStart, h] at hd
  simpa using hd

theorem isBlank_head_trim (h : (trim t).head? = some c) : isBlank c = false := by
  obtain ⟨rest, hr⟩ := List.rdropWhile_prefix isBlank (l := trimStart t)
  apply isBlank_head_trimStart (t := t)
  rw [trim, trimEnd_eq_rdropWhile] at h
  rw [← hr, List.head?_append, h]
  rfl

theorem isBlank_getLast_trim (h : (trim t).getLast? = some c) : isBlank c = false := by
  have hne : trim t ≠ [] := by
    intro hnil
    simp [hnil] at h
  have hc : (trim t).getLast hne = c := by
    rwa [List.getLast?_eq_some_getLast hne, Option.some.injEq] at h
  rw [← hc, ← Bool.not_eq_true]
  exact List.rdropWhile_last_not isBlank (trimStart t) hne

theorem trim_eq_self (hstart : ∀ c ∈ t.head?, isBlank c = false) (hend : ∀ c ∈ t.getLast?, isBlank c = false) :
    trim t = t := by
  rw [trim, trimStart_eq_self hstart, trimEnd_eq_rdropWhile, List.rdropWhile_eq_self_iff]
  intro hne
  simpa using hend _ (List.getLast?_eq_some_getLast hne)

theorem trim_sublist (t : Text) : (trim t).Sublist t := by
  have hend : (trim t).Sublist (trimStart t) := (List.rdropWhile_prefix isBlank (trimStart t)).sublist
  exact hend.trans (List.dropWhile_sublist isBlank)

theorem trim_trim (t : Text) : trim (trim t) = trim t :=
  trim_eq_self (fun _ => isBlank_head_trim) fun _ => isBlank_getLast_trim

theorem trimEnd_concat (t : Text) (h : isBlank c = true) : trimEnd (t ++ [c]) = trimEnd t := by
  simp [trimEnd, h]

theorem trim_concat (t : Text) (h : isBlank c = true) : trim (t ++ [c]) = trim t := by
  rw [trim, trimStart, List.dropWhile_append]
  split
  next hnil =>
    rw [List.isEmpty_iff] at hnil
    simp [trim, trimStart, hnil, h, trimEnd]
  next => exact trimEnd_concat _ h

theorem trimEnd_append_cons (s t : Text) (h : isBlank c = false) :
    trimEnd (s ++ c :: t) = s ++ c :: trimEnd t := by
  rw [trimEnd, trimEnd, List.reverse_append, List.reverse_cons, List.append_assoc, List.dropWhile_append]
  split
  next hnil =>
    rw [List.isEmpty_iff] at hnil
    simp [hnil, h]
  next => simp

theorem trimEnd_cons (t : Text) (h : isBlank c = false) : trimEnd (c :: t) = c :: trimEnd t :=
  trimEnd_append_cons [] t h

theorem head?_trim (t : Text) : (trim t).head? = (trimStart t).head? := by
  cases hstart : trimStart t with
  | nil => simp [trim, hstart, trimEnd]
  | cons c rest =>
    have hc : isBlank c = false := isBlank_head_trimStart (t := t) (by rw [hstart]; rfl)
    rw [trim, hstart, trimEnd_cons rest hc]
    rfl

theorem exists_blanks_trimEnd (t : Text) : ∃ gap, t = trimEnd t ++ gap ∧ ∀ c ∈ gap, isBlank c = true := by
  refine ⟨(t.reverse.takeWhile isBlank).reverse, ?_, fun c hc => ?_⟩
  · rw [trimEnd, ← List.reverse_append, List.takeWhile_append_dropWhile, List.reverse_reverse]
  · exact List.mem_takeWhile_imp (List.mem_reverse.1 hc)

end Folio.Text
