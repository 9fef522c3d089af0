import Folio.Text.Basic

/-!
# Places in a YAML text

A cursor is the rest of a text with the line, the column and the index where it begins. A line ends with
a line feed, a carriage return, both, or one of three further separators.
-/
namespace Folio.Yaml

/-- The characters that a stream may hold at all. -/
def isAllowed (c : Char) : Bool :=
  c = '\t' || c = '\n' || c = '\r' || (0x20 ≤ c.toNat && c.toNat ≤ 0x7E) || c.toNat = 0x85 ||
    (0xA0 ≤ c.toNat && c.toNat ≤ 0xFFFD) || 0x10000 ≤ c.toNat

def isBreak (c : Char) : Bool :=
  c = '\n' || c = '\r' || c = '\u0085' || c = '\u2028' || c = '\u2029'

def isSpacing (c : Char) : Bool := c = ' ' || c = '\t'

/-- The characters of anchors, handles and directives. -/
def isWord (c : Char) : Bool := c.isAlphanum || c = '_' || c = '-'

/-- Whether a word is over where `c` stands next, or nothing. -/
def isGap : Option Char → Bool
  | none => true
  | some c => isSpacing c || isBreak c

/-- The break that a separator is read as. The two separators beyond Latin stay what they are. -/
def breakOf (c : Char) : Char := if c = '\u2028' || c = '\u2029' then c else '\n'

structure Cursor where
  rest : Text
  line : Nat
  column : Nat
  index : Nat

namespace Cursor

def ofText (t : Text) : Cursor := ⟨t, 0, 0, 0⟩

/-- Go on by `n` characters of one line. -/
def advance (c : Cursor) (n : Nat) : Cursor := ⟨c.rest.drop n, c.line, c.column + n, c.index + n⟩

def ahead (c : Cursor) (n : Nat) : Option Char := c.rest[n]?

/-- Read a break, if there is one, and go on to the next line. -/
def takeBreak (c : Cursor) : Text × Cursor :=
  match c.rest with
  | '\r' :: '\n' :: rest => (['\n'], ⟨rest, c.line + 1, 0, c.index + 2⟩)
  | b :: rest => if isBreak b then ([breakOf b], ⟨rest, c.line + 1, 0, c.index + 1⟩) else ([], c)
  | [] => ([], c)

/-- The characters up to the first that fails `p`, within a line. -/
def span (c : Cursor) (p : Char → Bool) : Text × Cursor :=
  let taken := c.rest.takeWhile p
  (taken, c.advance taken.length)

def skipWhile (c : Cursor) (p : Char → Bool) : Cursor := (c.span p).2

def skipLine (c : Cursor) : Cursor := c.skipWhile fun ch => !isBreak ch

/-- Whether the line begins with the mark of a document, three hyphens or three dots. -/
def atMark (c : Cursor) : Bool :=
  c.column = 0 && isGap (c.ahead 3) &&
    (c.rest.take 3 = ['-', '-', '-'] || c.rest.take 3 = ['.', '.', '.'])

theorem length_advance_lt {c : Cursor} {ch : Char} {tail : Text} {n : Nat}
    (h : c.rest = ch :: tail) (hn : 0 < n) : (c.advance n).rest.length < c.rest.length := by
  simp only [advance, List.length_drop, h, List.length_cons]
  omega

theorem length_advance_le (c : Cursor) (n : Nat) :
    (c.advance n).rest.length ≤ c.rest.length := by
  simp only [advance, List.length_drop]
  omega

theorem length_skipWhile_le (c : Cursor) (p : Char → Bool) :
    (c.skipWhile p).rest.length ≤ c.rest.length := length_advance_le c _

theorem length_takeBreak_le (c : Cursor) : c.takeBreak.2.rest.length ≤ c.rest.length := by
  unfold takeBreak
  split
  next h => simp only [h, List.length_cons]; omega
  next h =>
    split
    · simp [h]
    · simp
  next => simp

theorem length_takeBreak_lt {c : Cursor} {ch : Char} {tail : Text} (h : c.rest = ch :: tail)
    (hb : isBreak ch = true) : c.takeBreak.2.rest.length < c.rest.length := by
  unfold takeBreak
  split
  next h' => simp only [h', List.length_cons]; omega
  next h' =>
    obtain ⟨rfl, rfl⟩ := List.cons.inj (h.symm.trans h')
    simp [hb, h]
  next h' => simp [h] at h'

end Cursor
end Folio.Yaml
