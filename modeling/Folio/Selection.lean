import Folio.Collection
import Folio.Disk.Edit
import Folio.Document.Block
import Folio.Language.Detector

/-!
# Selections

Of the files that were collected, those go into the document whose language is known and that can still
be measured. They are asked about one after another, and the disk may change while this goes on.
-/
namespace Folio

/-- The size of the file at a path and the time of its last change. A directory has no content. -/
def Disk.measure (disk : Disk) (path : Path) : Except Disk.Fault (Nat × Instant) := do
  match ← disk.find true path with
  | (_, .file content modified) => .ok (content.length, ⟨modified, 0⟩)
  | _ => .ok (0, ⟨0, 0⟩)

/-- Tells the language of a file, and leaves the disk as it is when the answer comes. -/
abbrev Recognizer := Disk → Path → Option Text × Disk

namespace Recognizer

/-- A detector on a disk that nobody else changes. -/
def undisturbed (detector : Language.Detector) : Recognizer :=
  fun disk path => (detector.detect disk path, disk)

/-- A file that `lost` names is taken away just before it is asked about. -/
def losing (lost : Path → Bool) (recognize : Recognizer) : Recognizer :=
  fun disk path => recognize (if lost path then disk.unlink path else disk) path

end Recognizer

structure Selection where
  files : List SourceFile
  events : List Event
  /-- The disk after the last question. -/
  disk : Disk

namespace Selection

def judge (disk : Disk) (c : Candidate) : Option Text → Option SourceFile × Event
  | none => (none, .unknownLanguage c.name)
  | some language =>
    match disk.measure c.path with
    | .ok (size, modified) =>
      let file : SourceFile := ⟨c.path, c.name, language, modified, size⟩
      (some file, .including file.description)
    | .error fault => (none, .unmeasured c.path fault)

def of (recognize : Recognizer) (disk : Disk) : List Candidate → Selection
  | [] => ⟨[], [], disk⟩
  | c :: rest =>
    let (language, disk) := recognize disk c.path
    let (file, event) := judge disk c language
    let later := of recognize disk rest
    ⟨file.toList ++ later.files, event :: later.events, later.disk⟩

end Selection
end Folio
