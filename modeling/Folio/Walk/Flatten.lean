import Folio.Walk.Visit

/-!
# Walks in order

A walk lists its visits from the top down, each directory before what is inside it. Directories that
`prune` names are left out with all that is inside them, except the one where the walk begins.
-/
namespace Folio

structure Entry where
  path : Path
  kind : Kind
  deriving DecidableEq

/-- An entry met on a walk, or why there is none. -/
abbrev Found := Except WalkFault Entry

namespace Visit

mutual
def flatten (prune : Path → Bool) : Visit → List Found
  | .fault f => [.error f]
  | .entry path kind inside => .ok ⟨path, kind⟩ :: flattenInside prune inside

/-- The visits inside a directory, without the pruned ones. -/
def flattenInside (prune : Path → Bool) : List Visit → List Found
  | [] => []
  | .entry path .directory inside :: rest =>
    (if prune path then [] else .ok ⟨path, .directory⟩ :: flattenInside prune inside) ++
      flattenInside prune rest
  | v :: rest => flatten prune v ++ flattenInside prune rest
end

end Visit

namespace Disk

def walk (disk : Disk) (followLinks : Bool) (prune : Path → Bool) (start : Path) : List Found :=
  (disk.visit followLinks start).flatten prune

/-- Whether an entry counts as a file: it is one, or it is a link that was not followed and leads to
one. -/
def countsAsFile (disk : Disk) (e : Entry) : Bool :=
  e.kind = .file || (e.kind = .link && disk.isFile e.path)

end Disk
end Folio
