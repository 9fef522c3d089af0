import Folio.Failure
import Folio.Index
import Folio.Text.Blank
import Folio.Text.Lowercase

/-!
# Mappings of extensions

A user maps extensions to languages, in the settings by single entries and on the command line by
arguments such as `tpl,html=twig`. Arguments come after the settings, and the last word on an extension
counts.
-/
namespace Folio.Language

/-- An extension as files carry it: without dots in front, without blanks at either end, in lower case.
An extension of which nothing is left is none. -/
def extensionKey? (t : Text) : Option Text :=
  let key := Text.lowercase (Text.trim ((Text.trim t).dropWhile (· = '.')))
  if key.isEmpty then none else some key

def argumentEntries (argument : Text) : Except Failure (List (Text × Text)) :=
  match Text.cutAt? '=' argument with
  | none => .error (.mapping argument)
  | some (extensions, language) =>
    .ok (((extensions.splitOn ',').filterMap extensionKey?).map fun key => (key, language))

def settingEntries (settings : Index Text Text) : List (Text × Text) :=
  settings.filterMap fun (t, language) => (extensionKey? t).map fun key => (key, language)

def mapping (settings : Index Text Text) (arguments : List Text) : Except Failure (Index Text Text) := do
  let entries ← arguments.mapM argumentEntries
  return Index.ofList (settingEntries settings ++ entries.flatten)

end Folio.Language
