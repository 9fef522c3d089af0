import Folio.Path.Basic

/-!
# Arguments

What a command line says, option by option. Rules, mappings, exclusion files and targets may be given
many times, everything else once; an option with a value of the wrong form is refused.
-/
namespace Folio.CommandLine

/-- Why a command line is not carried out. -/
inductive Refusal where
  | unknownOption
  /-- A value is missing, or empty where that says nothing. -/
  | missingValue
  | badNumber
  | repeated
  /-- A value was given to a switch. -/
  | unwantedValue
  | help
  | version
  deriving DecidableEq

def versionText : Text := "wrap-codeblocks 0.4.12\n".toList

inductive Setting where
  | rule
  | mapping
  | root
  | exclusionFile
  | settingsFile
  | jobs
  deriving DecidableEq

inductive Switch where
  | noSettings
  | followLinks
  | verbose
  | help
  | version
  deriving DecidableEq

structure Arguments where
  rules : List Text
  mappings : List Text
  root : Option Path
  exclusionFiles : List Text
  settingsFile : Option Path
  noSettings : Bool
  followLinks : Bool
  jobsGiven : Option Nat
  verbose : Bool
  targets : List Text
  deriving DecidableEq

/-- The number of jobs that a value stands for, written in digits behind a plus sign at most. -/
def jobs? (value : Text) : Option Nat :=
  let digits := (Text.afterFirst? '+' value).getD value
  let n := digits.foldl (fun n c => 10 * n + (c.toNat - 48)) 0
  if digits ≠ [] ∧ digits.all Char.isDigit ∧ 1 ≤ n ∧ n ≤ 65535 then some n else none

namespace Arguments

def empty : Arguments := ⟨[], [], none, [], none, false, false, none, false, []⟩

/-- The number of jobs; one if none is given. -/
def jobs (a : Arguments) : Nat := a.jobsGiven.getD 1

/-- A path that is given once and not empty. -/
def onePath (present : Option Path) (value : Text) : Except Refusal (Option Path) :=
  if present.isSome then .error .repeated
  else if value = [] then .error .missingValue
  else .ok (some (.ofText value))

def set (a : Arguments) (s : Setting) (value : Text) : Except Refusal Arguments :=
  match s with
  | .rule => .ok { a with rules := a.rules ++ [value] }
  | .mapping => .ok { a with mappings := a.mappings ++ [value] }
  | .exclusionFile => .ok { a with exclusionFiles := a.exclusionFiles ++ [value] }
  | .root => do
    let root ← onePath a.root value
    return { a with root }
  | .settingsFile => do
    let settingsFile ← onePath a.settingsFile value
    return { a with settingsFile }
  | .jobs =>
    if a.jobsGiven.isSome then .error .repeated
    else match jobs? value with
      | some n => .ok { a with jobsGiven := some n }
      | none => .error .badNumber

/-- Turn on a switch. Help and the version are shown at once. -/
def turnOn (a : Arguments) : Switch → Except Refusal Arguments
  | .noSettings => if a.noSettings then .error .repeated else .ok { a with noSettings := true }
  | .followLinks => if a.followLinks then .error .repeated else .ok { a with followLinks := true }
  | .verbose => if a.verbose then .error .repeated else .ok { a with verbose := true }
  | .help => .error .help
  | .version => .error .version

end Arguments
end Folio.CommandLine
