import Mathlib.Data.List.Forall2
import Folio.Proofs.Text.Pieces
import Folio.Proofs.Text.Trim

/-!
# Lines

A line ends with a newline or with a carriage return in front of it. Texts that only differ in this have the
same lines as far as trimming can tell.
-/
namespace Folio.Text
variable {a b : Text} {lines : List Text}

/-- The second text is the first one with a carriage return in front of some of its newlines. -/
inductive Reended : Text → Text → Prop where
  | nil : Reended [] []
  | keep (c : Char) {a b : Text} (h : Reended a b) : Reended (c :: a) (c :: b)
  | reend {a b : Text} (h : Reended a b) : Reended ('\n' :: a) ('\r' :: '\n' :: b)

theorem Reended.refl (t : Text) : Reended t t := by
  induction t with
  | nil => exact .nil
  | cons c t ih => exact .keep c ih

def EndsAlike (line line' : Text) : Prop := line' = line ∨ line' = line ++ ['\r']

theorem EndsAlike.cons {line line' : Text} (h : EndsAlike line line') (c : Char) :
    EndsAlike (c :: line) (c :: line') := by
  rcases h with rfl | rfl
  · exact .inl rfl
  · exact .inr rfl

theorem EndsAlike.trim_eq {line line' : Text} (h : EndsAlike line line') : trim line' = trim line := by
  rcases h with rfl | rfl
  · rfl
  · exact trim_concat line (by decide)

/-- Texts that differ in carriage returns in front of newlines have the same lines but for these. -/
theorem Reended.forall₂_splitOn (h : Reended a b) :
    List.Forall₂ EndsAlike (a.splitOn '\n') (b.splitOn '\n') := by
  induction h with
  | nil => exact .cons (.inl rfl) .nil
  | @keep c a b _ ih =>
    rw [List.splitOn_cons_eq_if_modifyHead, List.splitOn_cons_eq_if_modifyHead]
    split
    · exact .cons (.inl rfl) ih
    · generalize a.splitOn '\n' = front at ih ⊢
      generalize b.splitOn '\n' = back at ih ⊢
      cases ih with
      | nil => exact .nil
      | cons hfirst hrest => exact .cons (hfirst.cons c) hrest
  | @reend a b _ ih =>
    have hreturn : ('\r' :: '\n' :: b).splitOn '\n' = ['\r'] :: b.splitOn '\n' := by
      simp [List.splitOn_cons_eq_if_modifyHead]
    have hnewline : ('\n' :: a).splitOn '\n' = [] :: a.splitOn '\n' := by
      simp [List.splitOn_cons_eq_if_modifyHead]
    rw [hreturn, hnewline]
    exact .cons (.inr rfl) ih

theorem flatMap_newline (hne : lines ≠ []) :
    lines.flatMap (· ++ ['\n']) = ['\n'].intercalate lines ++ ['\n'] := by
  induction lines with
  | nil => exact absurd rfl hne
  | cons line lines ih =>
    by_cases hnil : lines = []
    · simp [hnil]
    · rw [List.flatMap_cons, ih hnil, intercalate_cons hnil]
      simp

/-- The text has these lines, whichever way they end and whether or not the last one is ended. -/
def HasLines (lines : List Text) (t : Text) : Prop :=
  Reended (['\n'].intercalate lines) t ∨ Reended (lines.flatMap (· ++ ['\n'])) t

end Folio.Text
