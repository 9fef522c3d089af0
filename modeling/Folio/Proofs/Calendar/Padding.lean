import Folio.Calendar
import Folio.Proofs.Text.Pieces
import Mathlib.Algebra.Group.Nat.Defs

/-!
# Padded numbers

A number with zeros in front is read as the number, and numbers of the same width sort as texts the way they
sort as numbers.
-/
namespace Folio

namespace Text
variable {a b s t : Text}

/-- Of two texts that begin with pieces of one length, the pieces decide where they differ. -/
theorem append_lt_append_of_lt (hl : a.length = b.length) (h : a < b) (s t : Text) : a ++ s < b ++ t := by
  induction a generalizing b with
  | nil =>
    rw [List.length_nil, eq_comm, List.length_eq_zero_iff] at hl
    exact absurd h (by simp [hl])
  | cons c a ih =>
    cases b with
    | nil => simp at hl
    | cons d b =>
      rw [List.cons_lt_cons_iff] at h
      rw [List.cons_append, List.cons_append, List.cons_lt_cons_iff]
      exact h.imp_right fun ⟨hcd, hab⟩ => ⟨hcd, ih (by simpa using hl) hab⟩

end Text

namespace Calendar
variable {width m n : Nat} {c : Char}

def number? (t : Text) : Option Nat :=
  if t.isEmpty || !t.all Char.isDigit then none else some (Nat.ofDigitChars 10 t 0)

theorem isDigit_of_mem_padded (h : c ∈ padded width n) : c.isDigit = true := by
  rcases List.mem_append.1 h with h | h
  · rw [List.eq_of_mem_replicate h]
    rfl
  · exact Nat.isDigit_of_mem_toDigits (by decide) (by decide) h

theorem padded_ne_nil (width n : Nat) : padded width n ≠ [] :=
  List.append_ne_nil_of_right_ne_nil _ Nat.toDigits_ne_nil

theorem number?_padded (width n : Nat) : number? (padded width n) = some n := by
  have hdigits : (padded width n).all Char.isDigit = true :=
    List.all_eq_true.2 fun _ => isDigit_of_mem_padded
  have hvalue : Nat.ofDigitChars 10 (padded width n) 0 = n := by
    simp [padded, Text.ofNat, Nat.ofDigitChars_append, Nat.ofDigitChars_replicate_zero,
      Nat.ofDigitChars_ten_toDigits]
  simp [number?, padded_ne_nil, hdigits, hvalue]

theorem notMem_padded (h : c.isDigit = false) (width n : Nat) : c ∉ padded width n := by
  intro hmem
  rw [isDigit_of_mem_padded hmem] at h
  cases h

theorem length_padded (hn : n < 10 ^ (width + 1)) : (padded (width + 1) n).length = width + 1 := by
  have hle : (Text.ofNat n).length ≤ width + 1 :=
    (Nat.length_toDigits_le_iff (by decide) (Nat.succ_pos width)).2 hn
  rw [padded, List.length_append, List.length_replicate]
  omega

/-- The last digit comes off the end. -/
theorem padded_succ (width n : Nat) :
    padded (width + 2) n = padded (width + 1) (n / 10) ++ [(n % 10).digitChar] := by
  have hdigits := @Nat.toDigits_eq_if 10 n (by decide)
  unfold padded Text.ofNat
  rw [hdigits]
  split
  next hlt => simp [Nat.div_eq_of_lt hlt, Nat.mod_eq_of_lt hlt, List.replicate_succ']
  next => simp

theorem digitChar_lt_digitChar (h : m < n) (hn : n < 10) : [m.digitChar] < [n.digitChar] := by
  have hm := @Nat.toNat_digitChar_of_lt_ten m (Nat.lt_trans h hn)
  have hn := @Nat.toNat_digitChar_of_lt_ten n hn
  rw [List.cons_lt_cons_iff]
  left
  show m.digitChar.toNat < n.digitChar.toNat
  omega

theorem padded_lt_padded (h : m < n) (hn : n < 10 ^ (width + 1)) :
    padded (width + 1) m < padded (width + 1) n := by
  induction width generalizing m n with
  | zero =>
    have hone : ∀ k, k < 10 → padded 1 k = [k.digitChar] := by
      intro k hk
      simp [padded, Text.ofNat, Nat.toDigits_of_lt_base hk]
    rw [hone m (by omega), hone n (by omega)]
    exact digitChar_lt_digitChar h (by omega)
  | succ width ih =>
    have htenth : n / 10 < 10 ^ (width + 1) := by
      rw [Nat.pow_succ] at hn
      omega
    rw [padded_succ, padded_succ]
    rcases Nat.lt_or_ge (m / 10) (n / 10) with hlt | hge
    · apply Text.append_lt_append_of_lt ?_ (ih hlt htenth)
      rw [length_padded (Nat.lt_trans hlt htenth), length_padded htenth]
    · have hsame : m / 10 = n / 10 := by omega
      rw [hsame, Text.append_lt_append_iff]
      exact digitChar_lt_digitChar (by omega) (by omega)

/-- Texts that begin with numbers of one width sort by these, and then by what is behind the mark. -/
theorem padded_append_lt {a b : Text} (c : Char) (hn : n < 10 ^ (width + 1)) (h : m < n ∨ m = n ∧ a < b) :
    padded (width + 1) m ++ c :: a < padded (width + 1) n ++ c :: b := by
  rcases h with h | ⟨rfl, h⟩
  · apply Text.append_lt_append_of_lt ?_ (padded_lt_padded h hn)
    rw [length_padded (Nat.lt_trans h hn), length_padded hn]
  · rw [Text.append_lt_append_iff, List.cons_lt_cons_iff]
    exact .inr ⟨rfl, h⟩

end Calendar
end Folio
