import Folio.Disk.Basic

/-!
# Changing the disk

Directories, files and links are made below directories that are made on the way, and a name can be
taken away. A change that a fault stands against leaves the disk as it was.
-/
namespace Folio.Disk

def blank (current : Place) : Disk := ⟨.empty, current, Node.sound_empty⟩

/-- The disk with another node at a place of possible names. -/
def put (disk : Disk) (place : Place) (node : Node) : Disk :=
  if h : node.Sound ∧ ∀ name ∈ place, IsFileName name then
    { disk with top := .put node place disk.top, sound := disk.sound.put h.1 h.2 }
  else disk

def remove (disk : Disk) (place : Place) : Disk :=
  { disk with top := .remove place disk.top, sound := disk.sound.remove place }

/-- Follow the steps from a place as `follow` does, and make each directory that is missing. -/
def reach (disk : Disk) (links : Nat) (here : Place) : List Step → Except Fault (Disk × Place)
  | [] => .ok (disk, here)
  | step :: rest =>
    match disk.top.at? here with
    | some (.directory es) =>
      match step with
      | .stay => reach disk links here rest
      | .up => reach disk links here.dropLast rest
      | .into name =>
        match es.lookup name with
        | none =>
          if maxNameSize < name.length then .error .nameTooLong
          else reach (disk.put (here ++ [name]) .empty) links (here ++ [name]) rest
        | some (.link target) =>
          match links with
          | 0 => .error .tooManyLinks
          | links + 1 => reach disk links (startOf here target) (steps target ++ rest)
        | some _ => reach disk links (here ++ [name]) rest
    | _ => .error .notDirectory
termination_by ss => (links, ss.length)

def place (disk : Disk) (path : Path) (node : Node) : Disk :=
  match (steps path.bytes).reverse with
  | .into name :: before =>
    match reach disk maxLinks (startOf disk.current path.bytes) before.reverse with
    | .ok (disk, here) => disk.put (here ++ [name]) node
    | .error _ => disk
  | _ => disk

def makeDirectory (disk : Disk) (path : Path) : Disk :=
  match reach disk maxLinks (startOf disk.current path.bytes) (steps path.bytes) with
  | .ok (disk, _) => disk
  | .error _ => disk

/-- Write a file. A link at the end of the path is followed. -/
def write (disk : Disk) (path : Path) (content : Bytes) (modified : Int) : Disk :=
  match disk.resolve true path with
  | .ok found => disk.put found (.file content modified)
  | .error _ => disk.place path (.file content modified)

def unlink (disk : Disk) (path : Path) : Disk :=
  match disk.find false path with
  | .ok (found, .file ..) => disk.remove found
  | .ok (found, .link _) => disk.remove found
  | _ => disk

end Folio.Disk
