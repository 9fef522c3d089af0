import Folio.Text.Basic

/-!
# Glob patterns

A glob pattern is a list of tokens: tokens that take one character, a star that takes any characters
but slashes, and a globstar that takes whole leading path components.
-/
namespace Folio.Glob

/-- A member of a character class. -/
inductive Member where
  | one (c : Char)
  | range (first last : Char)
  deriving DecidableEq

def Member.contains (c : Char) : Member → Bool
  | .one d => c = d
  | .range first last => first ≤ c && c ≤ last

/-- What one character of a path is compared with. -/
inductive Single where
  | literal (c : Char)
  | anything
  | inside (members : List Member)
  | outside (members : List Member)
  deriving DecidableEq

inductive Token where
  | single (s : Single)
  | star
  | globstar
  deriving DecidableEq

/-- A dot is guarded when it begins a name and only a literal dot may take it. -/
structure Dots where
  guarded : Bool

/-- Whether a wildcard may take `c`; `fresh` tells that a name begins with it. -/
def Dots.wild (dots : Dots) (fresh : Bool) (c : Char) : Bool :=
  c ≠ '/' && !(dots.guarded && fresh && c = '.')

def Single.takes (dots : Dots) (fresh : Bool) (c : Char) : Single → Bool
  | .literal d => c = d
  | .anything => dots.wild fresh c
  | .inside members => dots.wild fresh c && members.any (·.contains c)
  | .outside members => dots.wild fresh c && !members.any (·.contains c)

/-- The characters that a pattern without wildcards and classes spells. -/
def literalText? : List Token → Option Text
  | [] => some []
  | .single (.literal c) :: rest => (literalText? rest).map (c :: ·)
  | _ => none

/-- A text as a pattern that matches this text only. -/
def escape (t : Text) : Text :=
  t.flatMap fun c => if c = '?' ∨ c = '*' ∨ c = '[' ∨ c = ']' then ['[', c, ']'] else [c]

end Folio.Glob
