import Folio.Yaml.Cursor

/-!
# Scalars in one style or another

Blanks inside a scalar are kept within a line, and a single break between two lines is read as a space.
Quoted scalars end with their quote; plain ones end where the layout says so.
-/
namespace Folio.Yaml

/-- Blanks that were met and not yet written down. -/
inductive Gap where
  | blanks (text : Text)
  /-- The first break, which may be written off, and the breaks after it. -/
  | lines (first others : Text)
  deriving DecidableEq

namespace Gap

def none : Gap := .blanks []

def isLines : Gap → Bool
  | .blanks _ => false
  | .lines .. => true

def addSpacing (ch : Char) : Gap → Gap
  | .blanks t => .blanks (t ++ [ch])
  | .lines first others => .lines first others

def addBreak (b : Text) : Gap → Gap
  | .blanks _ => .lines b []
  | .lines first others => .lines first (others ++ b)

/-- What the gap comes to between two words. -/
def text : Gap → Text
  | .blanks t => t
  | .lines first others =>
    if first = ['\n'] then (if others = [] then [' '] else others) else first ++ others

end Gap

/-- Characters that one letter behind a backslash stands for. -/
def letterEscapes : List (Char × Char) :=
  [('0', '\x00'), ('a', '\x07'), ('b', '\x08'), ('t', '\t'), ('\t', '\t'), ('n', '\n'),
   ('v', '\x0b'), ('f', '\x0c'), ('r', '\r'), ('e', '\x1b'), (' ', ' '), ('"', '"'), ('/', '/'),
   ('\\', '\\'), ('N', '\u0085'), ('_', '\u00a0'), ('L', '\u2028'), ('P', '\u2029')]

/-- The number of hexadecimal digits that follow some letters behind a backslash. -/
def codeEscapes : List (Char × Nat) := [('x', 2), ('u', 4), ('U', 8)]

def hexValue? (c : Char) : Option Nat :=
  if c.isDigit then some (c.toNat - 48)
  else if 'a' ≤ c ∧ c ≤ 'f' then some (c.toNat - 87)
  else if 'A' ≤ c ∧ c ≤ 'F' then some (c.toNat - 55)
  else none

/-- The character whose code point is written with exactly `n` hexadecimal digits. -/
def codePoint? (n : Nat) (t : Text) : Option Char := do
  let digits ← (t.take n).mapM hexValue?
  let code := digits.foldl (fun v d => 16 * v + d) 0
  if digits.length = n ∧ code.isValidChar then some (Char.ofNat code) else none

/-- The character that an escape stands for and the number of characters behind the backslash. -/
def escape? : Text → Option (Char × Nat)
  | [] => none
  | c :: rest =>
    match letterEscapes.lookup c, codeEscapes.lookup c with
    | some ch, _ => some (ch, 1)
    | _, some n => (codePoint? n rest).map fun ch => (ch, n + 1)
    | _, _ => none

def singleQuoted (gap : Gap) (c : Cursor) : Option (Text × Cursor) :=
  match h : c.rest with
  | [] => none
  | ch :: _ =>
    if isSpacing ch then singleQuoted (gap.addSpacing ch) (c.advance 1)
    else if hb : isBreak ch = true then
      have := Cursor.length_takeBreak_lt h hb
      singleQuoted (gap.addBreak c.takeBreak.1) c.takeBreak.2
    else if c.atMark then none
    else if ch = '\x27' then
      if c.ahead 1 = some '\x27' then
        (singleQuoted .none (c.advance 2)).map fun (t, c) => (gap.text ++ ch :: t, c)
      else some (gap.text, c.advance 1)
    else (singleQuoted .none (c.advance 1)).map fun (t, c) => (gap.text ++ ch :: t, c)
termination_by c.rest.length
decreasing_by all_goals first | assumption | exact Cursor.length_advance_lt h (by omega)

/-- The text of a scalar in double quotes and the place behind its end. A backslash at the end of a line
takes the break away. -/
def doubleQuoted (gap : Gap) (c : Cursor) : Option (Text × Cursor) :=
  match h : c.rest with
  | [] => none
  | ch :: tail =>
    if isSpacing ch then doubleQuoted (gap.addSpacing ch) (c.advance 1)
    else if hb : isBreak ch = true then
      have := Cursor.length_takeBreak_lt h hb
      doubleQuoted (gap.addBreak c.takeBreak.1) c.takeBreak.2
    else if c.atMark then none
    else if ch = '"' then some (gap.text, c.advance 1)
    else if ch = '\\' then
      if (tail.head?.map isBreak).getD false then
        have := Nat.lt_of_le_of_lt (Cursor.length_takeBreak_le (c.advance 1))
          (Cursor.length_advance_lt h Nat.one_pos)
        (doubleQuoted (.lines [] []) (c.advance 1).takeBreak.2).map fun (t, c) => (gap.text ++ t, c)
      else
        match escape? tail with
        | none => none
        | some (e, n) =>
          (doubleQuoted .none (c.advance (n + 1))).map fun (t, c) => (gap.text ++ e :: t, c)
    else (doubleQuoted .none (c.advance 1)).map fun (t, c) => (gap.text ++ ch :: t, c)
termination_by c.rest.length
decreasing_by all_goals first | assumption | exact Cursor.length_advance_lt h (by omega)

/-- The characters that belong to collections in flow style. -/
def isFlowMark (c : Char) : Bool := c = ',' || c = '[' || c = ']' || c = '{' || c = '}'

/-- The text of a plain scalar, the blanks behind it and the place behind these. Lines after the first
begin at the column `least` at least, unless the scalar stands in a flow collection. -/
def plain (flow : Bool) (least : Int) (gap : Gap) (c : Cursor) : Option (Text × Gap × Cursor) :=
  match h : c.rest with
  | [] => some ([], gap, c)
  | ch :: _ =>
    if isSpacing ch then
      if gap.isLines ∧ ch = '\t' ∧ c.column < least then none
      else plain flow least (gap.addSpacing ch) (c.advance 1)
    else if hb : isBreak ch = true then
      have := Cursor.length_takeBreak_lt h hb
      plain flow least (gap.addBreak c.takeBreak.1) c.takeBreak.2
    else if gap ≠ .none ∧ (!flow && c.column < least || c.atMark || ch = '#') then some ([], gap, c)
    else if flow ∧ ch = ':' ∧ ((c.ahead 1).map fun d => isFlowMark d || d = '?').getD false then none
    else if ch = ':' ∧ isGap (c.ahead 1) ∨ flow ∧ isFlowMark ch then some ([], gap, c)
    else (plain flow least .none (c.advance 1)).map fun (t, rest) => (gap.text ++ ch :: t, rest)
termination_by c.rest.length
decreasing_by all_goals first | assumption | exact Cursor.length_advance_lt h (by omega)

end Folio.Yaml
