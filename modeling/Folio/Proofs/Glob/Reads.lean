import Folio.Glob.Parse

/-!
# Texts that read as tokens

A text reads as tokens when it gives them wherever it stands in a pattern. Each form that a token can be
written in has its own statement, and a text of plain characters reads as these characters.
-/
namespace Folio.Glob

/-- The text gives these tokens at every position; `fresh` tells that a path component begins there. -/
def Reads (fresh : Bool) (t : Text) (tokens : List Token) : Prop :=
  ∀ position, parseFrom position fresh t = .ok tokens

def IsPlain (c : Char) : Prop := c ≠ '*' ∧ c ≠ '?' ∧ c ≠ '['

variable {fresh : Bool} {c : Char} {t u : Text} {ts : List Token}

theorem parseFrom_plain (hc : IsPlain c) (position : Nat) :
    parseFrom position fresh (c :: t) =
      (.single (.literal c) :: ·) <$> parseFrom (position + 1) (c = '/') t := by
  obtain ⟨h₁, h₂, h₃⟩ := hc
  rw [parseFrom] <;> simp_all

theorem Reads.nil : Reads fresh [] [] := fun position => by rw [parseFrom]

theorem Reads.plain (hc : IsPlain c) (h : Reads (c = '/') t ts) :
    Reads fresh (c :: t) (.single (.literal c) :: ts) := by
  intro position
  rw [parseFrom_plain hc, h]
  rfl

theorem Reads.anything (h : Reads false t ts) : Reads fresh ('?' :: t) (.single .anything :: ts) := by
  intro position
  rw [parseFrom, h]
  rfl

theorem Reads.star (ht : t.head? ≠ some '*') (h : Reads false t ts) :
    Reads fresh ('*' :: t) (.star :: ts) := by
  intro position
  rw [parseFrom, h]
  · rfl
  all_goals
    intros
    simp_all

theorem Reads.class_ (hc : c ≠ '!') (h : Reads false t ts) :
    Reads fresh ('[' :: c :: ']' :: t) (.single (.inside [.one c]) :: ts) := by
  have hr : readClass? (c :: ']' :: t) = some (.inside [.one c], t) := by
    rw [readClass?]
    · rfl
    all_goals simp_all
  intro position
  rw [parseFrom]
  split
  next s after hs =>
    cases hr.symm.trans hs
    rw [h]
    rfl
  next hs => simp [hr] at hs

theorem Reads.globstar (h : Reads true t ts) :
    Reads true ('*' :: '*' :: '/' :: t) (.globstar :: ts) := by
  intro position
  rw [parseFrom, if_pos rfl, h]
  rfl

theorem Reads.globstar_end : Reads true ['*', '*'] [.globstar] := by
  intro position
  rw [parseFrom, if_pos rfl]

theorem parseFrom_append {position : Nat} (hu : ∀ c ∈ u, IsPlain c)
    (h : parseFrom position fresh (u ++ t) = .ok ts) :
    ∃ position' fresh' ts', parseFrom position' fresh' t = .ok ts' ∧
      ts = u.map (fun c => .single (.literal c)) ++ ts' := by
  induction u generalizing position fresh ts with
  | nil => exact ⟨position, fresh, ts, h, rfl⟩
  | cons c u ih =>
    rw [List.cons_append, parseFrom_plain (hu c (by simp))] at h
    cases hp : parseFrom (position + 1) (c = '/') (u ++ t) with
    | error e =>
      rw [hp] at h
      cases h
    | ok rest =>
      rw [hp] at h
      obtain ⟨position', fresh', ts', ht, rfl⟩ := ih (fun d hd => hu d (by simp [hd])) hp
      refine ⟨position', fresh', ts', ht, ?_⟩
      exact (Except.ok.inj h).symm

end Folio.Glob
