import Folio.Event
import Folio.Path.Relative
import Folio.Rule.Line
import Folio.Rule.Ruleset
import Folio.Walk.Flatten

/-!
# Rules in the tree

The exclusion files of a tree give their rules directory by directory, each directory before those
inside it. A file that cannot be read as text costs its own rules and nothing else.
-/
namespace Folio

def defaultExclusionFile : Text := ".gitignore".toList

/-- The names to look for: an empty list stands for the default name. -/
def exclusionNames (names : List Text) : List Text :=
  if names.isEmpty then [defaultExclusionFile] else names

structure Gathered where
  rules : List Text
  events : List Event

namespace Gathered

def none : Gathered := ⟨[], []⟩

def append (a b : Gathered) : Gathered := ⟨a.rules ++ b.rules, a.events ++ b.events⟩

def concat (gs : List Gathered) : Gathered := gs.foldr append none

theorem rules_concat (gs : List Gathered) : (concat gs).rules = gs.flatMap (·.rules) := by
  induction gs with
  | nil => rfl
  | cons g gs ih =>
    rw [List.flatMap_cons, ← ih]
    rfl

/-- The rules of one exclusion file that belongs to the directory named `dir`. -/
def ofFile (disk : Disk) (dir : Text) (path : Path) : Gathered :=
  if disk.isFile path then
    match disk.readText path with
    | .ok content =>
      let rules := rulesOfFile dir content
      ⟨rules, [.readRules rules.length path]⟩
    | .error fault => ⟨[], [.unreadableRules path fault]⟩
  else none

def ofDirectory (disk : Disk) (root : Path) (names : List Text) (path : Path) : Gathered :=
  concat (names.map fun name => ofFile disk (Path.relativeTo root path) (path.join (Utf8.encode name)))

def ofFound (disk : Disk) (root : Path) (names : List Text) : Found → Gathered
  | .ok e => if e.kind = .directory then ofDirectory disk root names e.path else none
  | .error fault => ⟨[], [.walkFault fault]⟩

end Gathered

/-- The rules of all exclusion files with one of the names below `root`. -/
def Disk.gather (disk : Disk) (followLinks : Bool) (names : List Text) (root : Path) : Gathered :=
  Gathered.concat <|
    (disk.walk followLinks (fun _ => false) root).map (Gathered.ofFound disk root (exclusionNames names))

def Ruleset.reports (texts : List Text) : List Event :=
  (Ruleset.refused texts).map fun (text, fault) => .skippedRule text fault

end Folio
