import Folio.Rule.Basic
import Folio.Rule.Line

/-!
# Rulesets

A ruleset is an ordered list of rules, of which the last one that applies decides. Without negations
a directory that is excluded can be left out of a walk, since nothing below it can come back in.
-/
namespace Folio

structure Ruleset where
  rules : List Rule

/-- What a ruleset says about a path, with the text of the rule that decided. -/
inductive Verdict where
  | included
  | excluded (rule : Text)
  | reincluded (rule : Text)
  deriving DecidableEq

def Verdict.isExcluded : Verdict → Bool
  | .excluded _ => true
  | _ => false

def Rule.verdict (r : Rule) : Verdict :=
  if r.negated then .reincluded r.text else .excluded r.text

namespace Ruleset

/-- The rules of all texts that can be read as rules. -/
def ofTexts (texts : List Text) : Ruleset :=
  ⟨texts.filterMap fun text => (Rule.compile text).toOption⟩

def refused (texts : List Text) : List (Text × Rule.Fault) :=
  texts.filterMap fun text =>
    match Rule.compile text with
    | .ok _ => none
    | .error fault => some (text, fault)

/-- The rule that keeps out the data of version control. -/
def versionControl : Text := "**/.git".toList

/-- All rule texts in the order in which they count: extra lines, the rule on version control, and
the rules found in the tree. -/
def ordered (extra found : List Text) : List Text :=
  extra.filterMap (ruleOfLine? Path.rootName) ++ versionControl :: found

def verdict (s : Ruleset) (path : Text) (isDirectory : Bool) : Verdict :=
  match s.rules.reverse.find? (·.applies path isDirectory) with
  | some r => r.verdict
  | none => .included

def hasNegation (s : Ruleset) : Bool := s.rules.any (·.negated)

/-- Whether a walk may leave out everything below the directory `dir`. -/
def mayPrune (s : Ruleset) (dir : Text) : Bool :=
  !s.hasNegation && dir ≠ Path.rootName && (s.verdict dir true).isExcluded

end Ruleset
end Folio
