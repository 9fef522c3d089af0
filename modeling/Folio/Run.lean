import Folio.Document.Write
import Folio.Rule.Gather
import Folio.Selection

/-!
# Runs

A run gathers the rules of a tree, collects the files that they let through, selects those of a known
language and writes the document. Only a root that does not exist stops it before it has begun.
-/
namespace Folio

structure Options where
  root : Path
  /-- Where relative targets start. -/
  workingDirectory : Path
  targets : List Text
  /-- Lines of rules that come before those of all exclusion files. -/
  extraRules : List Text
  exclusionFiles : List Text
  followLinks : Bool
  jobs : Nat

namespace Options

/-- The rules of a run, from the extra lines and from the tree below `root`, and what there was to
report about them. -/
def ruleset (o : Options) (disk : Disk) (root : Path) : Ruleset × List Event :=
  let gathered := disk.gather o.followLinks o.exclusionFiles root
  let texts := Ruleset.ordered o.extraRules gathered.rules
  let rules := Ruleset.ofTexts texts
  (rules, gathered.events ++ Ruleset.reports texts ++
    [.countedRules rules.rules.length gathered.rules.length])

/-- What a run collects below `root`. A working directory that does not exist is taken as it stands. -/
def collection (o : Options) (disk : Disk) (root : Path) (rules : Ruleset) : Collection :=
  let workingDirectory := (disk.canonical o.workingDirectory).toOption.getD o.workingDirectory
  Collector.collect ⟨root, workingDirectory, rules, o.followLinks⟩ disk o.targets

def run (o : Options) (recognize : Recognizer) (disk : Disk) : Except Failure Document :=
  match disk.canonical o.root with
  | .error _ => .error (.noRoot o.root)
  | .ok root =>
    let (rules, ruleEvents) := o.ruleset disk root
    let collected := o.collection disk root rules
    let selected := Selection.of recognize disk collected.files
    match Document.compose o.jobs selected.disk.reader selected.files with
    | .error _ => .error .undated
    | .ok document =>
      .ok { document with
        events := ruleEvents ++ collected.events ++ [collected.total] ++ selected.events ++
          document.events ++ [.wrapped document.report.emitted.length root] }

end Options
end Folio
