import Folio.Glob.Match
import Folio.Glob.Parse

/-!
# Rules

A rule text is an optional negation mark, a pattern and an optional slash that keeps the rule to
directories. The pattern is spelled out as a glob segment by segment. A rule that matches a directory
matches all below it as well.
-/
namespace Folio

structure Rule where
  /-- The rule as it was written. -/
  text : Text
  negated : Bool
  directoriesOnly : Bool
  tokens : List Glob.Token
  deriving DecidableEq

namespace Rule

inductive Fault where
  | empty
  | glob (fault : Glob.SyntaxFault)
  deriving DecidableEq

def Fault.reason : Fault → Text
  | .empty => "empty pattern".toList
  | .glob fault => fault.message

/-- A character that an escape puts into a class of its own. -/
def isSpecial (c : Char) : Bool := c = '*' || c = '?' || c = '[' || c = ']'

/-- One segment of a pattern as a glob: escaped characters become literal, `[^` opens a negated class
like `[!`, and stars in a row count as one. -/
def spellSegment : Text → Text
  | [] => []
  | ['\\'] => []
  | '\\' :: c :: rest =>
    if isSpecial c then '[' :: c :: ']' :: spellSegment rest else c :: spellSegment rest
  | '[' :: '^' :: rest => '[' :: '!' :: spellSegment rest
  | '*' :: '*' :: rest => spellSegment ('*' :: rest)
  | c :: rest => c :: spellSegment rest

/-- The segment that stands for any number of directories. -/
def anyDirectories : Text := ['*', '*']

def spell (pattern : Text) : Text :=
  ['/'].intercalate ((pattern.splitOn '/').map fun s => if s = anyDirectories then s else spellSegment s)

/-- What is left of a rule text without its marks. -/
structure Parts where
  negated : Bool
  directoriesOnly : Bool
  pattern : Text
  deriving DecidableEq

def parts (text : Text) : Parts :=
  let negated := text.head? = some '!'
  let rest := (Text.afterFirst? '!' text).getD text
  { negated
    directoriesOnly := rest.getLast? = some '/'
    pattern := ((Text.beforeLast? '/' rest).getD rest).dropWhile (· = '/') }

def globText (text : Text) : Text := spell (parts text).pattern

def compile (text : Text) : Except Fault Rule :=
  let p := parts text
  if p.pattern = [] then .error .empty
  else
    match Glob.parse (spell p.pattern) with
    | .ok tokens => .ok ⟨text, p.negated, p.directoriesOnly, tokens⟩
    | .error fault => .error (.glob fault)

theorem text_of_compile {text : Text} {r : Rule} (h : compile text = .ok r) : r.text = text := by
  unfold compile at h
  simp only at h
  split at h
  · simp at h
  · split at h <;> simp at h
    rw [← h]

/-- In rules a wildcard takes a leading dot like any other character. -/
def dots : Glob.Dots := ⟨false⟩

/-- Everything in front of a slash. -/
def cuts : Text → List Text
  | [] => []
  | c :: rest => (if c = '/' then [[]] else []) ++ (cuts rest).map (c :: ·)

theorem mem_cuts {q path : Text} : q ∈ cuts path ↔ ∃ r, path = q ++ '/' :: r := by
  induction path generalizing q with
  | nil => simp [cuts]
  | cons c rest ih =>
    cases q with
    | nil => by_cases hc : c = '/' <;> simp [cuts, hc]
    | cons d q =>
      have h : (d :: q) ∈ cuts (c :: rest) ↔ q ∈ cuts rest ∧ c = d := by
        by_cases hc : c = '/' <;> simp [cuts, hc]
      rw [h, ih]
      simp [and_comm]

def ancestors (path : Text) : List Text := (cuts path).filter (· ≠ [])

theorem mem_ancestors {q path : Text} :
    q ∈ ancestors path ↔ q ≠ [] ∧ ∃ r, path = q ++ '/' :: r := by
  simp [ancestors, mem_cuts, and_comm]

/-- Whether the rule applies to a path: to the path itself, or to a directory on the way to it. -/
def applies (r : Rule) (path : Text) (isDirectory : Bool) : Bool :=
  ((!r.directoriesOnly || isDirectory) && Glob.accepts dots r.tokens path) ||
    (ancestors path).any (Glob.accepts dots r.tokens)

theorem applies_below {r : Rule} {path below : Text} {isDirectory : Bool} (hp : path ≠ [])
    (h : r.applies path true = true) : r.applies (path ++ '/' :: below) isDirectory = true := by
  simp only [applies, Bool.or_true, Bool.true_and, Bool.or_eq_true, List.any_eq_true] at h ⊢
  refine .inr ?_
  rcases h with h | ⟨q, hq, hm⟩
  · exact ⟨path, mem_ancestors.2 ⟨hp, below, rfl⟩, h⟩
  · obtain ⟨hn, r', rfl⟩ := mem_ancestors.1 hq
    exact ⟨q, mem_ancestors.2 ⟨hn, r' ++ '/' :: below, by simp⟩, hm⟩

end Rule
end Folio
