import Folio.Yaml.Cursor
import Folio.Yaml.Token

/-!
# Anchors, tags and directives

A tag is written with a handle and a suffix, or in full between angle brackets. Only the handle matters
here, since tags are not interpreted, but the whole must be well formed. Each reader starts behind the
mark that announces its kind.
-/
namespace Folio.Yaml

/-- The characters besides words that may stand in any address. -/
def isAddressMark (c : Char) : Bool := ";/?:@&=+$.!~*'()".toList.contains c

def isHexDigit (c : Char) : Bool :=
  c.isDigit || ('a' ≤ c && c ≤ 'f') || ('A' ≤ c && c ≤ 'F')

/-- The value of two hexadecimal digits. -/
def octet? : Text → Option Nat
  | a :: b :: _ =>
    let digit (c : Char) : Nat :=
      if c.isDigit then c.toNat - 48 else if c.isUpper then c.toNat - 55 else c.toNat - 87
    if isHexDigit a && isHexDigit b then some (16 * digit a + digit b) else none
  | _ => none

/-- The number of octets that an octet announces for its character. -/
def width? (octet : Nat) : Option Nat :=
  if octet < 0x80 then some 1
  else if octet < 0xC0 then none
  else if octet < 0xE0 then some 2
  else if octet < 0xF0 then some 3
  else if octet < 0xF8 then some 4
  else none

/-- Whether `n` octets that continue a character are written at the beginning of a text. -/
def continues : Nat → Text → Bool
  | 0, _ => true
  | n + 1, t =>
    t.head? = some '%' && ((octet? t.tail).map fun o => 0x80 ≤ o && o < 0xC0).getD false &&
      continues n (t.drop 3)

/-- The number of characters behind a percent sign that belong to one escaped character. -/
def escapeLength? (t : Text) : Option Nat := do
  let n ← width? (← octet? t)
  if continues (n - 1) (t.drop 2) then some (3 * n - 1) else none

/-- The length of the address at the beginning of a text; none if an escape in it is malformed. In a tag
that is written in full commas and brackets belong to it. -/
def addressLength? (full : Bool) : Text → Option Nat
  | [] => some 0
  | c :: rest =>
    if c = '%' then
      match escapeLength? rest with
      | none => none
      | some n => (addressLength? full (rest.drop n)).map (n + 1 + ·)
    else if isWord c || isAddressMark c || full && (c = ',' || c = '[' || c = ']') then
      (addressLength? full rest).map (1 + ·)
    else some 0
termination_by t => t.length
decreasing_by
  · simp only [List.length_drop, List.length_cons]
    omega
  · simp

def readName? (c : Cursor) : Option (Text × Cursor) :=
  let (name, c) := c.span isWord
  let ends := isGap (c.ahead 0) || ((c.ahead 0).map fun ch => "?:,]\x7d%@\x60".toList.contains ch).getD false
  if name ≠ [] ∧ ends then some (name, c) else none

/-- Read a tag behind its exclamation mark: the handle, which is empty if there is none. -/
def readTag? (flow : Bool) (c : Cursor) : Option (Text × Cursor) := do
  let (handle, c) ←
    if c.ahead 0 = some '<' then do
      let n ← addressLength? true (c.advance 1).rest
      let c := c.advance (n + 1)
      if n ≠ 0 ∧ c.ahead 0 = some '>' then some ([], c.advance 1) else none
    else do
      let (name, after) := c.span isWord
      if after.ahead 0 = some '!' then
        let n ← addressLength? false (after.advance 1).rest
        if n ≠ 0 then some ('!' :: name ++ ['!'], after.advance (n + 1)) else none
      else
        let n ← addressLength? false after.rest
        some (if name = [] ∧ n = 0 then [] else ['!'], after.advance n)
  if isGap (c.ahead 0) || flow && c.ahead 0 = some ',' then some (handle, c) else none

/-- Read a number of a version, which has nine digits at most. -/
def readNumber? (c : Cursor) : Option (Nat × Cursor) :=
  let (digits, c) := c.span Char.isDigit
  if digits ≠ [] ∧ digits.length ≤ 9 then
    some (digits.foldl (fun v d => 10 * v + (d.toNat - 48)) 0, c)
  else none

/-- What the directive of a given name says. -/
def readValue? (name : Text) (c : Cursor) : Option (Token × Cursor) :=
  let c := c.skipWhile isSpacing
  if name = "YAML".toList then do
    let (major, c) ← readNumber? c
    if c.ahead 0 = some '.' then
      let (minor, c) ← readNumber? (c.advance 1)
      some (.version major minor, c)
    else none
  else if name = "TAG".toList then do
    if c.ahead 0 = some '!' then
      let (word, c) := (c.advance 1).span isWord
      let closed := c.ahead 0 = some '!'
      let c := if closed then c.advance 1 else c
      if (word = [] ∨ closed) ∧ ((c.ahead 0).map isSpacing).getD false then
        let c := c.skipWhile isSpacing
        let n ← addressLength? true c.rest
        let c := c.advance n
        if n ≠ 0 ∧ isGap (c.ahead 0) then
          some (.handle ('!' :: word ++ (if closed then ['!'] else [])), c)
        else none
      else none
    else none
  else none

/-- Read a directive behind its percent sign, up to the next line. -/
def readDirective? (c : Cursor) : Option (Token × Cursor) := do
  let (name, c) := c.span isWord
  if name = [] ∨ !isGap (c.ahead 0) then none
  else
    let (token, c) ← readValue? name c
    let c := c.skipWhile isSpacing
    let c := if c.ahead 0 = some '#' then c.skipLine else c
    if isGap (c.ahead 0) then some (token, c.takeBreak.2) else none

end Folio.Yaml
