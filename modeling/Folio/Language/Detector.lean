import Folio.Disk.Basic
import Folio.Index
import Folio.Language.Shebang
import Folio.Text.Lowercase

/-!
# Telling the language of a file

The user's own mapping of extensions decides first and finally. Then the name of the file, its
extension and its first line are asked in this order.
-/
namespace Folio.Language

/-- The tag that stands for no language. -/
def unknown : Text := "unknown".toList

def known? (tag : Text) : Option Text := if tag = unknown then none else some tag

structure Detector where
  /-- The user's languages by extension. -/
  mapping : Index Text Text
  /-- Whether files may be read. -/
  reads : Bool

namespace Detector

/-- What the extension and the name of a file say: a tag, or nothing at all. -/
def byName? (d : Detector) (path : Path) : Option Text :=
  let extension := path.extension?.map Text.lowercase
  extension.bind (d.mapping.find? ·) <|> path.nameText?.bind (lookUp fileNames) <|>
    extension.bind (lookUp extensions)

/-- The language of the file at a path; none for files that should stay out. -/
def detect (d : Detector) (disk : Disk) (path : Path) : Option Text :=
  match d.byName? path with
  | some tag => known? tag
  | none =>
    if d.reads then
      match disk.read path with
      | .ok (.ok content) => sniff? content
      | _ => none
    else none

end Detector
end Folio.Language
