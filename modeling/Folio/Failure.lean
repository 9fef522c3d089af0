import Folio.Disk.Fault
import Folio.Path.Basic

/-!
# Failures

What can go wrong for a whole run or for one file of it, with the words for it. A failure that comes
from the disk keeps the disk's own fault as its cause.
-/
namespace Folio

inductive Failure where
  /-- An argument that should map extensions to a language has no equals sign. -/
  | mapping (argument : Text)
  | configuration (reason : Text)
  | noHome
  | rule (text reason : Text)
  | noRoot (path : Path)
  | unreadableRules (path : Path) (cause : Disk.Fault)
  | unmeasured (path : Path) (cause : Disk.Fault)
  | disk (cause : Disk.Fault)
  /-- A time that lies outside the calendar has no date to be written. -/
  | undated
  deriving DecidableEq

namespace Failure

def message : Failure → Text
  | .mapping argument =>
    "Invalid filetype mapping: ".toList ++ argument ++ " (expected ext1,ext2=lang)".toList
  | .configuration reason => "Configuration error: ".toList ++ reason
  | .noHome => "Home directory not found".toList
  | .rule text reason => "Invalid ignore pattern '".toList ++ text ++ "': ".toList ++ reason
  | .noRoot path => "Root directory not found: ".toList ++ path.shown
  | .unreadableRules path cause => "Error reading ".toList ++ path.shown ++ ": ".toList ++ cause.message
  | .unmeasured path cause =>
    "Could not stat file ".toList ++ path.shown ++ ": ".toList ++ cause.message
  | .disk cause => "I/O error: ".toList ++ cause.message
  | .undated => "time outside the calendar".toList

def cause? : Failure → Option Disk.Fault
  | .unreadableRules _ cause => some cause
  | .unmeasured _ cause => some cause
  | .disk cause => some cause
  | _ => none

end Failure
end Folio
