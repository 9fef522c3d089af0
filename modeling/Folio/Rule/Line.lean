import Folio.Path.Relative
import Folio.Text.Blank

/-!
# Lines of exclusion files

A line of an exclusion file, or an extra pattern, is read into a negation mark, an anchor and a
pattern. Its rule text then says the same relative to the tree root: a pattern that is tied to the
directory of its file stands directly below that directory, any other pattern at any depth below it.
-/
namespace Folio

structure Line where
  negated : Bool
  anchored : Bool
  pattern : Text
  deriving DecidableEq

namespace Line

/-- A mark at the start of a text, and what follows the mark. -/
def marked (c : Char) (t : Text) : Bool × Text :=
  match Text.afterFirst? c t with
  | some rest => (true, rest)
  | none => (false, t)

/-- Blank lines, comments and lines of marks alone hold no pattern. -/
def read? (text : Text) : Option Line :=
  let line := Text.trim text
  if line = [] ∨ line.head? = some '#' then none
  else
    let (negated, rest) := marked '!' line
    let (anchored, pattern) := marked '/' (Text.trim rest)
    if pattern = [] then none else some ⟨negated, anchored, pattern⟩

theorem read?_pattern_ne_nil {text : Text} {l : Line} (h : read? text = some l) :
    l.pattern ≠ [] := by
  unfold read? at h
  simp only at h
  split at h
  · simp at h
  · split at h
    · simp at h
    next hp => exact Option.some.inj h ▸ hp

/-- Whether the pattern holds only at its place below the directory of its file: it is anchored, or
has a slash before its end. -/
def tied (l : Line) : Bool :=
  l.anchored || ((Text.beforeLast? '/' l.pattern).getD l.pattern).contains '/'

def anyDepth : Text := "**/".toList

/-- The rule that the line stands for in a file of the directory `dir`. -/
def ruleText (dir : Text) (l : Line) : Text :=
  (if l.negated then ['!'] else []) ++
    (if dir = Path.rootName then [] else dir ++ ['/']) ++
    (if l.tied then [] else anyDepth) ++ l.pattern

end Line

def ruleOfLine? (dir line : Text) : Option Text := (Line.read? line).map (·.ruleText dir)

def rulesOfFile (dir content : Text) : List Text :=
  (content.splitOn '\n').filterMap (ruleOfLine? dir)

end Folio
