import Folio.Event
import Folio.Path.Clean
import Folio.Path.Relative
import Folio.Rule.Ruleset
import Folio.Target.Expand
import Folio.Walk.Flatten

/-!
# Collections

Targets are looked up one by one, and each file that turns up is judged by the rules under its name
relative to the root. What the rules let through is kept under its absolute path as that is shown, in
the order of these. Of two files that are shown alike only the one that turned up last is kept.
-/
namespace Folio

/-- A file that the rules let through. -/
structure Candidate where
  path : Path
  name : Text
  deriving DecidableEq

/-- What turns up while targets are looked up: a file to judge, or something to report. -/
inductive Find where
  | file (path : Path)
  | report (event : Event)

structure Collection where
  /-- The kept files under their absolute paths as these are shown. -/
  kept : Index Text Candidate
  /-- The names that were left out, each with the rule that decided. -/
  ignored : List (Text × Text)
  /-- The number of files that were judged, repetitions counted. -/
  discovered : Nat
  events : List Event

/-- Where files are looked for, and by which rules they are judged. -/
structure Collector where
  root : Path
  workingDirectory : Path
  rules : Ruleset
  followLinks : Bool

namespace Collection

def empty : Collection := ⟨[], [], 0, []⟩

def files (c : Collection) : List Candidate := c.kept.map (·.2)

def ignoredShare (c : Collection) : Float := Event.percentage c.ignored.length c.discovered

def total (c : Collection) : Event := .collected c.kept.length c.ignored.length c.discovered

end Collection

namespace Collector

def nameOf (c : Collector) (path : Path) : Text := Path.relativeTo c.root path

def take (c : Collector) (s : Collection) : Find → Collection
  | .report event => { s with events := s.events ++ [event] }
  | .file path =>
    let name := c.nameOf path
    match c.rules.verdict name false with
    | .excluded rule =>
      { s with
        discovered := s.discovered + 1
        ignored := s.ignored ++ [(name, rule)]
        events := s.events ++ [.ignored name rule] }
    | _ => { s with discovered := s.discovered + 1, kept := s.kept.insert path.shown ⟨path, name⟩ }

def resolve (c : Collector) (target : Text) : Path := (c.workingDirectory.join (Utf8.encode target)).clean

/-- The files of a walk; directories that the rules exclude are not entered. -/
def walked (c : Collector) (disk : Disk) (start : Path) : List Find :=
  (disk.walk c.followLinks (fun p => c.rules.mayPrune (c.nameOf p)) start).filterMap fun
    | .ok e => if disk.countsAsFile e then some (.file e.path) else none
    | .error fault => some (.report (.accessFault fault))

def searched (c : Collector) (disk : Disk) (target : Text) : List Find :=
  match Target.expand disk (Target.patternOf c.workingDirectory target) with
  | .ok paths => (paths.filter disk.isFile).map fun p => .file p.clean
  | .error fault => [.report (.invalidTarget target fault)]

/-- What turns up for one target: it is a file, a directory or else a search pattern. -/
def lookUp (c : Collector) (disk : Disk) (target : Text) : List Find :=
  let path := c.resolve target
  if disk.isFile path then [.file path]
  else if disk.isDirectory path then c.walked disk path
  else c.searched disk target

/-- What turns up for all targets; without targets the whole tree is walked. -/
def finds (c : Collector) (disk : Disk) (targets : List Text) : List Find :=
  if targets.isEmpty then c.walked disk c.root else targets.flatMap (c.lookUp disk)

def collect (c : Collector) (disk : Disk) (targets : List Text) : Collection :=
  (c.finds disk targets).foldl c.take .empty

end Collector
end Folio
