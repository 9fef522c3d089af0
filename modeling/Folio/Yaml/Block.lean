import Folio.Yaml.Scalar

/-!
# Block scalars

A literal scalar keeps its breaks; in a folded one a break between two lines that begin with a word is
read as a space. What follows the last line is kept, clipped to one break, or stripped.
-/
namespace Folio.Yaml

inductive Chomping where
  | strip
  | clip
  | keep
  deriving DecidableEq

/-- What the first line of a block scalar says: how its end is treated and how far its lines are
indented, if it says so. -/
structure BlockHeader where
  chomping : Chomping
  increment : Option Nat

namespace BlockHeader

def chomping? : Char → Option Chomping
  | '+' => some .keep
  | '-' => some .strip
  | _ => none

def increment? (c : Char) : Option Nat := if c.isDigit then some (c.toNat - 48) else none

def read? : Text → Option (BlockHeader × Nat)
  | [] => some (⟨.clip, none⟩, 0)
  | a :: rest =>
    match chomping? a, increment? a with
    | some chomping, _ =>
      match rest.head?.bind increment? with
      | some 0 => none
      | some n => some (⟨chomping, some n⟩, 2)
      | none => some (⟨chomping, none⟩, 1)
    | none, some 0 => none
    | none, some n =>
      match rest.head?.bind chomping? with
      | some chomping => some (⟨chomping, some n⟩, 2)
      | none => some (⟨.clip, some n⟩, 1)
    | none, none => some (⟨.clip, none⟩, 0)

end BlockHeader

structure Margin where
  breaks : Text
  /-- The greatest column that was reached. -/
  widest : Nat
  cursor : Cursor

/-- Read breaks and indentation up to the column `indent`, or all there is if `indent` is 0. -/
def margin (indent widest : Nat) (breaks : Text) (c : Cursor) : Option Margin :=
  match h : c.rest with
  | [] => some ⟨breaks, max widest c.column, c⟩
  | ch :: _ =>
    if ch = ' ' ∧ (indent = 0 ∨ c.column < indent) then margin indent widest breaks (c.advance 1)
    else if ch = '\t' ∧ (indent = 0 ∨ c.column < indent) then none
    else if hb : isBreak ch = true then
      have := Cursor.length_takeBreak_lt h hb
      margin indent (max widest c.column) (breaks ++ c.takeBreak.1) c.takeBreak.2
    else some ⟨breaks, max widest c.column, c⟩
termination_by c.rest.length
decreasing_by all_goals first | assumption | exact Cursor.length_advance_lt h (by omega)

theorem length_margin_le {indent widest : Nat} {breaks : Text} {c : Cursor} {m : Margin}
    (h : margin indent widest breaks c = some m) : m.cursor.rest.length ≤ c.rest.length := by
  fun_induction margin indent widest breaks c with
  | case1 => cases h; simp
  | case2 _ _ _ _ _ _ _ ih => exact Nat.le_trans (ih h) (Cursor.length_advance_le _ _)
  | case3 => simp at h
  | case4 _ _ _ _ _ _ _ _ _ _ ih => exact Nat.le_trans (ih h) (Cursor.length_takeBreak_le _)
  | case5 => cases h; simp

/-- What stands between two lines of a block scalar: the break of the first, and the empty lines. -/
def joint (folded blankBefore blankAfter : Bool) (first others : Text) : Text :=
  if folded && first = ['\n'] && !blankBefore && !blankAfter then
    (if others = [] then [' '] else []) ++ others
  else first ++ others

/-- The lines of a block scalar from the column `indent` on, as far as they were read: what the last
break and the empty lines before this place are, and whether the line before begins with a blank. The
result gives the text, the last break, the empty lines after it and the place behind these. -/
def blockLines (folded : Bool) (indent : Nat) (first others : Text) (blankBefore : Bool) (c : Cursor) :
    Option (Text × Text × Text × Cursor) :=
  match h : c.rest with
  | [] => some ([], first, others, c)
  | ch :: _ =>
    if c.column = indent then
      let blank := isSpacing ch
      let line := ((c.advance 1).span fun ch => !isBreak ch).1
      let atEnd := (c.advance 1).skipLine
      match hm : margin indent 0 [] atEnd.takeBreak.2 with
      | none => none
      | some m =>
        have : m.cursor.rest.length < c.rest.length :=
          Nat.lt_of_le_of_lt (length_margin_le hm) <|
            Nat.lt_of_le_of_lt (Cursor.length_takeBreak_le atEnd) <|
              Nat.lt_of_le_of_lt (Cursor.length_skipWhile_le _ _) <|
                Cursor.length_advance_lt h Nat.one_pos
        (blockLines folded indent atEnd.takeBreak.1 m.breaks blank m.cursor).map fun (t, rest) =>
          (joint folded blankBefore blank first others ++ ch :: line ++ t, rest)
    else some ([], first, others, c)
termination_by c.rest.length

/-- The text of a block scalar whose header begins at the cursor, and the place behind it; `outer` is
the indentation around it, or -1. -/
def blockScalar (folded : Bool) (outer : Int) (c : Cursor) : Option (Text × Cursor) := do
  let (header, n) ← BlockHeader.read? c.rest
  let c := (c.advance n).skipWhile isSpacing
  let c := if c.ahead 0 = some '#' then c.skipLine else c
  if !isGap (c.ahead 0) then none
  else
    let given := ((header.increment.map fun n => (max outer 0) + (n : Int)).getD 0).toNat
    let m ← margin given 0 [] c.takeBreak.2
    let indent := if given = 0 then max (max m.widest (outer + 1).toNat) 1 else given
    let (text, last, others, c) ← blockLines folded indent [] m.breaks false m.cursor
    let ending := match header.chomping with
      | .strip => []
      | .clip => last
      | .keep => last ++ others
    some (text ++ ending, c)

end Folio.Yaml
