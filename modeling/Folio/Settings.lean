import Folio.Disk.Basic
import Folio.Failure
import Folio.Text.Blank
import Folio.Yaml.Document

/-!
# Settings

What a user wants in every run: rules, languages of extensions and names of exclusion files. A file of
settings is a YAML mapping. What it does not name is left empty, and what nobody knows is passed over.
-/
namespace Folio

structure Settings where
  extraRules : List Text
  /-- Languages by extension, as the user wrote them. -/
  languages : Index Text Text
  exclusionFiles : List Text
  deriving DecidableEq

namespace Settings

def empty : Settings := ⟨[], [], []⟩

structure Fields where
  extraRules : Option (List Text)
  languages : Option (Index Text Text)
  exclusionFiles : Option (List Text)

def Fields.settings (f : Fields) : Settings :=
  ⟨f.extraRules.getD [], f.languages.getD [], f.exclusionFiles.getD []⟩

def texts? (d : Yaml.Document) (node : Yaml.Node Nat) : Option (List Text) := do
  (← d.items? node).mapM d.text?

/-- A mapping of texts, in which the last value of a key counts. -/
def index? (d : Yaml.Document) (node : Yaml.Node Nat) : Option (Index Text Text) := do
  let entries ← (← d.pairs? node).mapM fun (k, v) => do some (← d.text? k, ← d.text? v)
  some (Index.ofList entries)

/-- Read one field. No field may be given twice. -/
def Fields.add? (d : Yaml.Document) (f : Fields) (pair : Yaml.Node Nat × Yaml.Node Nat) :
    Option Fields := do
  let name ← d.text? pair.1
  if name = "ignore".toList then
    if f.extraRules.isSome then none else some { f with extraRules := some (← texts? d pair.2) }
  else if name = "filetypes".toList then
    if f.languages.isSome then none else some { f with languages := some (← index? d pair.2) }
  else if name = "ignore_files".toList then
    if f.exclusionFiles.isSome then none
    else some { f with exclusionFiles := some (← texts? d pair.2) }
  else some f

/-- The settings in a text, if it is a mapping whose known fields have the right form. -/
def ofText? (t : Text) : Option Settings := do
  let d ← Yaml.Document.ofText? t
  let fields ← (← d.pairs? d.root).foldlM (Fields.add? d) ⟨none, none, none⟩
  some fields.settings

/-- The settings in a file. A file that is missing or blank sets nothing. -/
def load (disk : Disk) (path : Path) : Except Failure Settings :=
  if !disk.exists? path then .ok empty
  else
    match disk.readText path with
    | .error fault => .error (.disk fault)
    | .ok t =>
      if Text.trim t = [] then .ok empty
      else match ofText? t with
        | some settings => .ok settings
        | none => .error (.configuration
            ("Failed to parse config file ".toList ++ path.shown ++ ": not valid settings".toList))

end Settings
end Folio
