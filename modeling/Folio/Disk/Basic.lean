import Folio.Disk.Fault
import Folio.Disk.Sound

/-!
# The disk

A disk is one directory tree with a working directory in it. Paths are followed step by step through
links, as an operating system does: a step up leaves the directory that was really reached, and a path
may cross forty links at most.
-/
namespace Folio

structure Disk where
  top : Node
  /-- The place of the working directory. -/
  current : Place
  sound : top.Sound

namespace Disk
open Folio.Path (slash dot)

/-- One step along a path. Empty pieces and dots stay where they are, which only a directory allows. -/
inductive Step where
  | stay
  | up
  | into (name : Bytes)
  deriving DecidableEq

def Step.ofPiece (piece : Bytes) : Step :=
  if piece = [] ∨ piece = [dot] then .stay
  else if piece = [dot, dot] then .up
  else .into piece

def steps (path : Bytes) : List Step := (path.splitOn slash).map Step.ofPiece

/-- The number of links that one path may cross. -/
def maxLinks : Nat := 40

def startOf (current : Place) (path : Bytes) : Place := if path.head? = some slash then [] else current

/-- Follow the steps from a place. A link at the end of the path is followed only if `last` is set;
`links` counts the links that may still be crossed. -/
def follow (top : Node) (last : Bool) (links : Nat) (here : Place) : List Step → Except Fault Place
  | [] => .ok here
  | step :: rest =>
    match top.at? here with
    | some (.directory es) =>
      match step with
      | .stay => follow top last links here rest
      | .up => follow top last links here.dropLast rest
      | .into name =>
        if maxNameSize < name.length then .error .nameTooLong
        else match es.lookup name with
          | none => .error .missing
          | some (.link target) =>
            if rest.isEmpty && !last then .ok (here ++ [name])
            else match links with
              | 0 => .error .tooManyLinks
              | links + 1 => follow top last links (startOf here target) (steps target ++ rest)
          | some _ => follow top last links (here ++ [name]) rest
    | _ => .error .notDirectory
termination_by ss => (links, ss.length)

def resolve (disk : Disk) (last : Bool) (path : Path) : Except Fault Place :=
  if path.bytes = [] then .error .missing
  else if path.bytes.contains 0 then .error .badName
  else follow disk.top last maxLinks (startOf disk.current path.bytes) (steps path.bytes)

def find (disk : Disk) (last : Bool) (path : Path) : Except Fault (Place × Node) := do
  let place ← disk.resolve last path
  match disk.top.at? place with
  | some node => .ok (place, node)
  | none => .error .missing

def pathOf (place : Place) : Path := ⟨slash :: [slash].intercalate place⟩

/-- The absolute path without links, dots and steps up that leads where `path` leads. -/
def canonical (disk : Disk) (path : Path) : Except Fault Path := pathOf <$> disk.resolve true path

def exists? (disk : Disk) (path : Path) : Bool := (disk.find true path).isOk

def isFile (disk : Disk) (path : Path) : Bool :=
  match disk.find true path with
  | .ok (_, .file ..) => true
  | _ => false

def isDirectory (disk : Disk) (path : Path) : Bool :=
  match disk.find true path with
  | .ok (_, .directory _) => true
  | _ => false

/-- The content of the file at a path. A directory opens, but gives no content. -/
def read (disk : Disk) (path : Path) : Except Fault (Except Fault Bytes) := do
  match ← disk.find true path with
  | (_, .file content _) => .ok (.ok content)
  | _ => .ok (.error .isDirectory)

def readText (disk : Disk) (path : Path) : Except Fault Text := do
  match Utf8.decode? (← (← disk.read path)) with
  | some text => .ok text
  | none => .error .notText

end Disk
end Folio
