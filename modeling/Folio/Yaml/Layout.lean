import Folio.Yaml.Block
import Folio.Yaml.Property
import Folio.Yaml.Token

/-!
# The layout of a YAML text

Indentation opens and closes block collections. What stands before a colon is known as a key only when
the colon is met, on the same line and within 1024 characters; the tokens that announce it are then put
in where it began. A layout is the state of this between two tokens.
-/
namespace Folio.Yaml

/-- A place where a key may have begun. -/
structure KeyStart where
  /-- Whether only a key can stand there. -/
  required : Bool
  /-- The number of tokens before it. -/
  position : Nat
  line : Nat
  column : Nat
  index : Nat

structure Layout where
  cursor : Cursor
  tokens : List Token
  /-- The columns of the open block collections, innermost first. -/
  indents : List Int
  /-- Where a key may have begun, for each open flow collection from the innermost outwards, and last
  for the blocks around them. -/
  keys : List (Option KeyStart)
  /-- Whether a key may begin at the cursor. -/
  keyAllowed : Bool

namespace Layout

def start (t : Text) : Layout := ⟨.ofText t, [], [], [none], true⟩

def inFlow (l : Layout) : Bool := 1 < l.keys.length

/-- The column of the innermost block collection, -1 outside of all. -/
def indent (l : Layout) : Int := l.indents.headD (-1)

def push (l : Layout) (t : Token) : Layout := { l with tokens := l.tokens ++ [t] }

/-- Add a token that takes `n` characters, and say whether a key may follow it. -/
def mark (l : Layout) (n : Nat) (keyAllowed : Bool) (t : Token) : Layout :=
  { l.push t with cursor := l.cursor.advance n, keyAllowed }

/-- Go on behind a token that ends at `c`. -/
def upTo (l : Layout) (c : Cursor) (keyAllowed : Bool) (t : Token) : Layout :=
  { l.push t with cursor := c, keyAllowed }

def close (l : Layout) (column : Int) : Layout :=
  if l.inFlow then l
  else
    let closed := l.indents.takeWhile (column < ·)
    { l with
      tokens := l.tokens ++ List.replicate closed.length .blockEnd
      indents := l.indents.drop closed.length }

/-- Open a block collection at a column, with its token at a position, unless it is open already. -/
def opened (l : Layout) (column position : Nat) (t : Token) : Layout :=
  if l.inFlow ∨ (column : Int) ≤ l.indent then l
  else { l with
    tokens := l.tokens.insertIdx position t
    indents := (column : Int) :: l.indents }

/-- Give up the key that may have begun; a required key cannot be given up. -/
def dropKey? (l : Layout) : Option Layout :=
  match l.keys with
  | some k :: keys => if k.required then none else some { l with keys := none :: keys }
  | _ => some l

/-- Note that a key may begin at the cursor. -/
def startKey? (l : Layout) : Option Layout :=
  if l.keyAllowed then do
    let l ← l.dropKey?
    let k : KeyStart :=
      { required := !l.inFlow && l.indent = l.cursor.column
        position := l.tokens.length
        line := l.cursor.line
        column := l.cursor.column
        index := l.cursor.index }
    some { l with keys := some k :: l.keys.drop 1 }
  else some l

/-- Give up all keys that began too far back. -/
def dropStale? (l : Layout) : Option Layout := do
  let stale (k : KeyStart) : Bool := k.line < l.cursor.line || k.index + 1024 < l.cursor.index
  if l.keys.any fun k => (k.map fun k => stale k && k.required).getD false then none
  else some { l with keys := l.keys.map fun k => k.filter fun k => !stale k }

/-- Blanks, comments and breaks in front of the next token; in a block a key may begin on a new line. -/
def skipGap (flow keyAllowed : Bool) (c : Cursor) : Bool × Cursor :=
  match h : c.rest with
  | [] => (keyAllowed, c)
  | ch :: _ =>
    if ch = '\ufeff' ∧ c.column = 0 ∨ ch = ' ' ∨ ch = '\t' ∧ (flow || !keyAllowed) then
      skipGap flow keyAllowed (c.advance 1)
    else if ch = '#' then
      have : (c.advance 1).skipLine.rest.length < c.rest.length :=
        Nat.lt_of_le_of_lt (Cursor.length_skipWhile_le (c.advance 1) _)
          (Cursor.length_advance_lt h Nat.one_pos)
      skipGap flow keyAllowed (c.advance 1).skipLine
    else if hb : isBreak ch = true then
      have := Cursor.length_takeBreak_lt h hb
      skipGap flow (keyAllowed || !flow) c.takeBreak.2
    else (keyAllowed, c)
termination_by c.rest.length
decreasing_by all_goals first | assumption | exact Cursor.length_advance_lt h (by omega)

/-- Go on to the next token and close the blocks that end before it. -/
def toToken? (l : Layout) : Option Layout := do
  let (keyAllowed, cursor) := skipGap l.inFlow l.keyAllowed l.cursor
  let l ← { l with keyAllowed, cursor }.dropStale?
  some (l.close cursor.column)

/-- A directive or a mark of a document ends all blocks. -/
def outermost? (l : Layout) : Option Layout := (l.close (-1)).dropKey?

/-- The hyphen of an item. In a flow collection it is left to be refused later. -/
def item? (l : Layout) : Option Layout := do
  if !l.inFlow && !l.keyAllowed then none
  else
    let l ← (l.opened l.cursor.column l.tokens.length .blockSequence).dropKey?
    some (l.mark 1 true .item)

def key? (l : Layout) : Option Layout := do
  if !l.inFlow && !l.keyAllowed then none
  else
    let l ← (l.opened l.cursor.column l.tokens.length .blockMapping).dropKey?
    some (l.mark 1 (!l.inFlow) .key)

/-- The colon of a value: what may have begun as a key was one. -/
def value? (l : Layout) : Option Layout :=
  match l.keys with
  | some k :: keys =>
    let l := { l with tokens := l.tokens.insertIdx k.position .key, keys := none :: keys }
    some ((l.opened k.column k.position .blockMapping).mark 1 false .value)
  | _ =>
    if !l.inFlow && !l.keyAllowed then none
    else some ((l.opened l.cursor.column l.tokens.length .blockMapping).mark 1 (!l.inFlow) .value)

/-- A flow collection begins, which may be a key as a whole. -/
def flowOpen? (l : Layout) (t : Token) : Option Layout := do
  let l ← l.startKey?
  some ({ l with keys := none :: l.keys }.mark 1 true t)

def flowClose? (l : Layout) (t : Token) : Option Layout := do
  let l ← l.dropKey?
  some ({ l with keys := if l.inFlow then l.keys.drop 1 else l.keys }.mark 1 false t)

/-- The characters that no plain scalar begins with. -/
def indicators : Text := "-?:,[]\x7b\x7d#&*!|>\x27\"%@\x60".toList

/-- Whether a plain scalar begins with `ch` before `following`. -/
def startsPlain (l : Layout) (ch : Char) (following : Option Char) : Bool :=
  !(isGap (some ch) || indicators.contains ch) ||
    (ch = '-' && !(following.map isSpacing).getD false) ||
    (!l.inFlow && (ch = '?' || ch = ':') && !isGap following)

def token? (l : Layout) (ch : Char) : Option Layout :=
  let c := l.cursor
  let following := c.ahead 1
  if c.column = 0 ∧ ch = '%' then do
    let l ← l.outermost?
    let (t, c) ← readDirective? (c.advance 1)
    some (l.upTo c false t)
  else if c.atMark then do
    let l ← l.outermost?
    some (l.mark 3 false (if ch = '-' then .documentStart else .documentEnd))
  else if ch = '[' then l.flowOpen? .sequenceOpen
  else if ch = '{' then l.flowOpen? .mappingOpen
  else if ch = ']' then l.flowClose? .sequenceClose
  else if ch = '}' then l.flowClose? .mappingClose
  else if ch = ',' then do
    let l ← l.dropKey?
    some (l.mark 1 true .comma)
  else if ch = '-' ∧ isGap following then l.item?
  else if ch = '?' ∧ (l.inFlow ∨ isGap following) then l.key?
  else if ch = ':' ∧ (l.inFlow ∨ isGap following) then l.value?
  else if ch = '*' then do
    let l ← l.startKey?
    let (name, c) ← readName? (c.advance 1)
    some (l.upTo c false (.alias name))
  else if ch = '&' then do
    let l ← l.startKey?
    let (name, c) ← readName? (c.advance 1)
    some (l.upTo c false (.anchor name))
  else if ch = '!' then do
    let l ← l.startKey?
    let (handle, c) ← readTag? l.inFlow (c.advance 1)
    some (l.upTo c false (.tag handle))
  else if (ch = '|' ∨ ch = '>') ∧ !l.inFlow then do
    let l ← l.dropKey?
    let (t, c) ← blockScalar (ch = '>') l.indent (c.advance 1)
    some (l.upTo c true (.scalar t false))
  else if ch = '\x27' then do
    let l ← l.startKey?
    let (t, c) ← singleQuoted .none (c.advance 1)
    some (l.upTo c false (.scalar t false))
  else if ch = '"' then do
    let l ← l.startKey?
    let (t, c) ← doubleQuoted .none (c.advance 1)
    some (l.upTo c false (.scalar t false))
  else if l.startsPlain ch following then do
    let l ← l.startKey?
    let (t, gap, c) ← plain l.inFlow (l.indent + 1) .none c
    some (l.upTo c gap.isLines (.scalar t true))
  else none

/-- Read at most `n` tokens up to the end of the text. -/
def run? : Nat → Layout → Option (List Token)
  | 0, _ => none
  | n + 1, l => do
    let l ← l.toToken?
    match l.cursor.rest with
    | [] => (l.outermost?).map (·.tokens)
    | ch :: _ => run? n (← l.token? ch)

end Layout

/-- The tokens of a YAML text, if it has a layout. Each token takes a character at least. -/
def tokens? (t : Text) : Option (List Token) :=
  if t.all isAllowed then Layout.run? (t.length + 1) (.start t) else none

end Folio.Yaml
