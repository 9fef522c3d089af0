import Folio.Decimal
import Folio.Failure
import Folio.Rule.Basic
import Folio.Walk.Visit

/-!
# Events

What a run reports while it works, in order. Warnings are always shown, the rest only on request.
-/
namespace Folio

inductive Level where
  | warn
  | info
  | debug
  deriving DecidableEq

def Level.name : Level → Text
  | .warn => "WARN".toList
  | .info => "INFO".toList
  | .debug => "DEBUG".toList

inductive Event where
  | configurationFailed (failure : Failure)
  | skippedRule (text : Text) (fault : Rule.Fault)
  | walkFault (fault : WalkFault)
  | readRules (count : Nat) (path : Path)
  | unreadableRules (path : Path) (fault : Disk.Fault)
  | countedRules (all found : Nat)
  | accessFault (fault : WalkFault)
  | invalidTarget (target : Text) (fault : Glob.SyntaxFault)
  | ignored (name rule : Text)
  | collected (kept ignored discovered : Nat)
  | unknownLanguage (name : Text)
  | including (description : Text)
  | unmeasured (path : Path) (fault : Disk.Fault)
  | unopened (path : Path) (fault : Disk.Fault)
  | unread (path : Path) (fault : Disk.Fault)
  | summarized (files : Nat)
  | wrote (files skipped readErrors : Nat)
  | wrapped (files : Nat) (root : Path)
  deriving DecidableEq

namespace Event

def level : Event → Level
  | .readRules .. | .countedRules .. | .ignored .. | .collected .. | .unknownLanguage .. |
    .including .. | .summarized .. | .wrote .. => .debug
  | .wrapped .. => .info
  | _ => .warn

/-- The share of `part` in `whole`, in percent; nothing has no share in nothing. -/
def percentage (part whole : Nat) : Float :=
  if whole = 0 then 0 else Float.ofNat part / Float.ofNat whole * 100

def message : Event → Text
  | .configurationFailed failure => "Error loading config file: ".toList ++ failure.message
  | .skippedRule text fault =>
    "Skipping pattern: ".toList ++ (Failure.rule text fault.reason).message
  | .walkFault fault => "Error walking directory tree: ".toList ++ fault.message
  | .readRules count path => Text.ofNat count ++ " rules from ".toList ++ path.shown
  | .unreadableRules path fault => (Failure.unreadableRules path fault).message
  | .countedRules all found =>
    Text.ofNat all ++ " patterns (".toList ++ Text.ofNat found ++ " from exclusion files)".toList
  | .accessFault fault => "Error accessing file: ".toList ++ fault.message
  | .invalidTarget target fault =>
    "Invalid search pattern '".toList ++ target ++ "': ".toList ++ fault.message
  | .ignored name rule => "Ignoring ".toList ++ name ++ " (".toList ++ rule ++ ")".toList
  | .collected kept out all =>
    "Collected ".toList ++ Text.ofNat kept ++ " files, ignored ".toList ++ Text.ofNat out ++
      " of ".toList ++ Text.ofNat all ++ " (".toList ++ Decimal.onePlace (percentage out all) ++
      "%)".toList
  | .unknownLanguage name => "Unknown language: ".toList ++ name
  | .including description => "Including ".toList ++ description
  | .unmeasured path fault => (Failure.unmeasured path fault).message
  | .unopened path fault =>
    "Could not open file ".toList ++ path.shown ++ ": ".toList ++ fault.message
  | .unread path fault => "Error reading file ".toList ++ path.shown ++ ": ".toList ++ fault.message
  | .summarized files => "Summary covers ".toList ++ Text.ofNat files ++ " files".toList
  | .wrote files skipped readErrors =>
    "Wrote ".toList ++ Text.ofNat files ++ " files (".toList ++ Text.ofNat skipped ++
      " skipped, ".toList ++ Text.ofNat readErrors ++ " read errors)".toList
  | .wrapped files root =>
    "Wrapped ".toList ++ Text.ofNat files ++ " files from ".toList ++ root.shown

def line (e : Event) : Text := e.level.name ++ ": ".toList ++ e.message

/-- The events that are shown: all of them, or the warnings. -/
def shown (verbose : Bool) (events : List Event) : List Event :=
  events.filter fun e => verbose || e.level = .warn

end Event
end Folio
