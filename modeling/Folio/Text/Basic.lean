/-!
# Text

Text is a list of characters. Here are the few cuts that the rest of the library is written
with: a beginning or a last character taken off, and a cut at the first occurrence of a character.
-/
namespace Folio

/-- The rest of a list that begins with all of `start`. -/
def behind? {α : Type} [DecidableEq α] : List α → List α → Option (List α)
  | [], l => some l
  | _ :: _, [] => none
  | a :: start, b :: l => if a = b then behind? start l else none

theorem behind?_append {α : Type} [DecidableEq α] (start r : List α) :
    behind? start (start ++ r) = some r := by
  induction start with
  | nil => rfl
  | cons a start ih => simp [behind?, ih]

theorem behind?_eq_some_iff {α : Type} [DecidableEq α] {start l r : List α} :
    behind? start l = some r ↔ l = start ++ r := by
  constructor
  · intro h
    induction start generalizing l with
    | nil => exact Option.some.inj h
    | cons a start ih =>
      cases l with
      | nil => simp [behind?] at h
      | cons b l =>
        unfold behind? at h
        split at h
        next hab => rw [ih h, hab, List.cons_append]
        next => simp at h
  · rintro rfl
    exact behind?_append start r

/-- Text is a list of Unicode characters, so that each rule on it is a recursion on a list. -/
abbrev Text := List Char

namespace Text

/-- The rest of a text that begins with `c`. -/
def afterFirst? (c : Char) : Text → Option Text
  | [] => none
  | d :: rest => if d = c then some rest else none

theorem afterFirst?_eq_some_iff {c : Char} {t r : Text} :
    afterFirst? c t = some r ↔ t = c :: r := by
  cases t with
  | nil => simp [afterFirst?]
  | cons d rest => by_cases h : d = c <;> simp [afterFirst?, h]

theorem afterFirst?_eq_none_iff {c : Char} {t : Text} :
    afterFirst? c t = none ↔ t.head? ≠ some c := by
  cases t with
  | nil => simp [afterFirst?]
  | cons d rest => by_cases h : d = c <;> simp [afterFirst?, h]

/-- The part of a text in front of its last character `c`. -/
def beforeLast? (c : Char) (t : Text) : Option Text :=
  if t.getLast? = some c then some t.dropLast else none

theorem beforeLast?_append (c : Char) (t : Text) : beforeLast? c (t ++ [c]) = some t := by
  simp [beforeLast?]

theorem beforeLast?_eq_some_iff {c : Char} {t r : Text} :
    beforeLast? c t = some r ↔ t = r ++ [c] := by
  constructor
  · intro h
    unfold beforeLast? at h
    split at h
    next hl =>
      obtain ⟨s, rfl⟩ := List.getLast?_eq_some_iff.1 hl
      simpa using h
    next => simp at h
  · rintro rfl
    exact beforeLast?_append c r

/-- The two sides of the first `c`. -/
def cutAt? (c : Char) : Text → Option (Text × Text)
  | [] => none
  | d :: rest =>
    if d = c then some ([], rest)
    else (cutAt? c rest).map fun (before, after) => (d :: before, after)

theorem eq_append_of_cutAt? {c : Char} {t a b : Text} (h : cutAt? c t = some (a, b)) :
    t = a ++ c :: b := by
  induction t generalizing a with
  | nil => simp [cutAt?] at h
  | cons d rest ih =>
    unfold cutAt? at h
    split at h
    next hd =>
      cases h
      simp [hd]
    next =>
      obtain ⟨⟨x, y⟩, hx, he⟩ := Option.map_eq_some_iff.1 h
      cases he
      simp [ih hx]

theorem cutAt?_eq_none_iff {c : Char} {t : Text} : cutAt? c t = none ↔ c ∉ t := by
  induction t with
  | nil => simp [cutAt?]
  | cons d rest ih =>
    by_cases h : d = c
    · simp [cutAt?, h]
    · simp [cutAt?, h, ih, Ne.symm h]

/-- Decimal digits of a number, without leading zeros. -/
def ofNat (n : Nat) : Text := Nat.toDigits 10 n

end Text

/-- Bytes of a file, or of the name of one. -/
abbrev Bytes := List UInt8

end Folio
