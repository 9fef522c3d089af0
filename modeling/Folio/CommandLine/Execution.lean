import Folio.CommandLine.Arguments
import Folio.Language.Mapping
import Folio.Run
import Folio.Settings

/-!
# Carrying out a command

The settings come first and the arguments after them: rules and mappings are added, and exclusion files
that are named take the place of those in the settings. Settings that cannot be used are reported and
left out. Only a mapping without an equals sign and a root that is missing stop a command, and both do
so before anything is written.
-/
namespace Folio.CommandLine

structure Outcome where
  output : Text
  events : List Event
  failure : Option Failure

def settingsFileIn (home : Path) : Path :=
  (home.join (Utf8.ofString ".config")).join (Utf8.ofString "wrap-codeblocks.yaml")

namespace Arguments

def loaded (a : Arguments) (home : Option Path) (disk : Disk) : Except Failure Settings :=
  if a.noSettings then .ok .empty
  else match a.settingsFile, home with
    | some path, _ => Settings.load disk path
    | none, some home => Settings.load disk (settingsFileIn home)
    | none, none => .error .noHome

/-- The settings that the arguments ask for, or none with a report. -/
def settings (a : Arguments) (home : Option Path) (disk : Disk) : Settings × List Event :=
  match a.loaded home disk with
  | .ok settings => (settings, [])
  | .error failure => (.empty, [.configurationFailed failure])

/-- What a run is asked to do by settings and arguments in a working directory. -/
def options (a : Arguments) (settings : Settings) (workingDirectory : Path) : Options where
  root := a.root.getD workingDirectory
  workingDirectory := workingDirectory
  targets := a.targets
  extraRules := settings.extraRules ++ a.rules
  exclusionFiles :=
    exclusionNames (if a.exclusionFiles.isEmpty then settings.exclusionFiles else a.exclusionFiles)
  followLinks := a.followLinks
  jobs := a.jobs

def executeWith (a : Arguments) (settings : Settings) (disk : Disk) : Except Failure Document := do
  let mapping ← Language.mapping settings.languages a.mappings
  let recognize := Recognizer.undisturbed ⟨mapping, true⟩
  (a.options settings (Disk.pathOf disk.current)).run recognize disk

def execute (a : Arguments) (home : Option Path) (disk : Disk) : Outcome :=
  let (settings, events) := a.settings home disk
  match a.executeWith settings disk with
  | .ok document => ⟨document.text, events ++ document.events, none⟩
  | .error failure => ⟨[], events, some failure⟩

end Arguments
end Folio.CommandLine
