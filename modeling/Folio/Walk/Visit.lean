import Folio.Disk.Basic

/-!
# Walks

A walk over the disk is laid out as a tree of visits: what stands at a path, or why it cannot be
visited, and what stands inside. A walk never decides by itself what a link becomes. With links not
followed a link is a leaf; with links followed it is what it leads to, unless it leads nowhere or back
to a directory on the way to it.
-/
namespace Folio

inductive WalkFault where
  | disk (path : Path) (fault : Disk.Fault)
  /-- The link `path` leads back to the directory `ancestor` that the walk came through. -/
  | loop (path ancestor : Path)
  deriving DecidableEq

def WalkFault.message : WalkFault → Text
  | .disk path fault => "IO error for operation on ".toList ++ path.shown ++ ": ".toList ++ fault.message
  | .loop path ancestor =>
    "File system loop found: ".toList ++ path.shown ++ " points to an ancestor ".toList ++ ancestor.shown

/-- What a walk takes a path for. -/
inductive Kind where
  | file
  | directory
  | link
  deriving DecidableEq

inductive Visit where
  | fault (fault : WalkFault)
  | entry (path : Path) (kind : Kind) (inside : List Visit)

/-- A directory on the way, with the place that its path leads to. -/
structure Ancestor where
  place : Place
  path : Path

mutual
/-- The visits at a node that stands at `path`. Each link becomes what `onLink` makes of its path and
the directories on the way to it, nearest first; entries that `shows` refuses are passed over. -/
def Node.visit (shows : Bytes → Bool) (onLink : List Ancestor → Path → Visit) (way : List Ancestor)
    (place : Place) (path : Path) : Node → Visit
  | .file .. => .entry path .file []
  | .link _ => onLink way path
  | .directory es =>
    .entry path .directory (visitEntries shows onLink (⟨place, path⟩ :: way) place path es)

def visitEntries (shows : Bytes → Bool) (onLink : List Ancestor → Path → Visit) (way : List Ancestor)
    (place : Place) (path : Path) : List (Bytes × Node) → List Visit
  | [] => []
  | (name, node) :: rest =>
    let others := visitEntries shows onLink way place path rest
    if shows name then
      node.visit shows onLink way (place ++ [name]) (path.join name) :: others
    else others
end

def Visit.ofLink (path : Path) : Visit := .entry path .link []

namespace Disk

/-- What a link becomes when links are followed and `links` more may be crossed. -/
def visitLink (disk : Disk) : (links : Nat) → List Ancestor → Path → Visit
  | 0, _, path => .fault (.disk path .tooManyLinks)
  | links + 1, way, path =>
    match disk.find true path with
    | .error fault => .fault (.disk path fault)
    | .ok (place, node) =>
      if node.isDirectory then
        match way.find? fun a => a.place = place with
        | some ancestor => .fault (.loop path ancestor.path)
        | none => node.visit (fun _ => true) (visitLink disk links) way place path
      else node.visit (fun _ => true) (visitLink disk links) way place path

/-- The visits below a path where a walk begins. A link there is always entered; it counts as a link
itself when links are not followed. -/
def visit (disk : Disk) (followLinks : Bool) (path : Path) : Visit :=
  match disk.find false path with
  | .error fault => .fault (.disk path fault)
  | .ok (place, node) =>
    if followLinks then
      match node with
      | .link _ => disk.visitLink maxLinks [] path
      | _ => node.visit (fun _ => true) (disk.visitLink maxLinks) [] place path
    else
      match node with
      | .link _ =>
        match disk.find true path with
        | .error fault => .fault (.disk path fault)
        | .ok (place, node) =>
          .entry path .link
            (visitEntries (fun _ => true) (fun _ => Visit.ofLink) [] place path node.entries)
      | _ => node.visit (fun _ => true) (fun _ => Visit.ofLink) [] place path

end Disk
end Folio
