import Folio.Calendar
import Folio.Disk.Fault
import Folio.Markup.Attribute
import Folio.Markup.CharacterData
import Folio.Path.Basic

/-!
# Blocks

The block of a file gives its name, its language, the time of its last change and its size, and then its
content as character data. A fault that ended reading early is noted behind the content.
-/
namespace Folio

structure SourceFile where
  path : Path
  name : Text
  language : Text
  modified : Instant
  size : Nat
  deriving DecidableEq

def SourceFile.description (f : SourceFile) : Text :=
  f.name ++ " (".toList ++ f.language ++ ", ".toList ++ Text.ofNat f.size ++ " bytes)".toList

/-- What reading an open file gave, up to the fault that ended it early, if any. -/
structure Content where
  text : Text
  fault : Option Disk.Fault
  deriving DecidableEq

namespace Document

/-- The content between the marks of its section, ended by a newline unless it is empty. -/
def contentSection (text : Text) : Text :=
  let inner := Markup.CharacterData.escape text
  let ending := if inner.isEmpty || inner.getLast? = some '\n' then [] else ['\n']
  "    ".toList ++ Markup.CharacterData.opening ++ '\n' :: inner ++ ending ++
    Markup.CharacterData.closing ++ ['\n']

def note : Option Disk.Fault → Text
  | none => []
  | some fault =>
    "    <error>".toList ++
      Markup.Attribute.escape ("Error reading file: ".toList ++ fault.message) ++
      "</error>\n".toList

def block (f : SourceFile) (timestamp : Text) (content : Content) : Text :=
  "  <file ".toList ++ Markup.Attribute.render "name".toList f.name ++
    ' ' :: Markup.Attribute.render "language".toList f.language ++
    " modified=\"".toList ++ timestamp ++ "\" size=\"".toList ++ Text.ofNat f.size ++
    "\">\n".toList ++ contentSection content.text ++ note content.fault ++ "  </file>\n".toList

end Document
end Folio
