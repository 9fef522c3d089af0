import Folio.Glob.Match
import Folio.Glob.Parse
import Folio.Walk.Visit

/-!
# Search patterns

A target that names nothing on the disk is a search pattern. It is cut at its slashes into component
patterns, which are followed down the disk one by one, through links as well. Wildcards pass over names
that begin with a dot. A component of two stars goes down any number of directories. A pattern is text, and
so is every name that it finds: a name that is no text is passed over.
-/
namespace Folio.Target
open Folio.Path (slash dot)

abbrev Piece := List Glob.Token

def isDeep (p : Piece) : Bool := p = [.globstar]

/-- In search patterns a leading dot is taken by a dot only. -/
def dots : Glob.Dots := ⟨true⟩

/-- A name that wildcards may take. -/
def isShown (name : Bytes) : Bool := (Utf8.decode? name).any fun t => t.head? ≠ some '.'

def takes (p : Piece) (name : Bytes) : Bool := (Utf8.decode? name).any (Glob.accepts dots p)

/-- What a link becomes on the way down: a directory to go into, or a leaf. -/
def visitLink (disk : Disk) : (links : Nat) → List Ancestor → Path → Visit
  | 0, _, path => Visit.ofLink path
  | links + 1, _, path =>
    match disk.find true path with
    | .ok (place, .directory es) =>
      Node.visit isShown (visitLink disk links) [] place path (.directory es)
    | _ => Visit.ofLink path

def below (disk : Disk) (path : Path) : List Visit :=
  match disk.find true path with
  | .ok (place, node) =>
    visitEntries isShown (visitLink disk Disk.maxLinks) [] place path node.entries
  | .error _ => []

mutual
/-- The paths that `here` finds at a visit and at all visits inside it. -/
def descend (here : Path → Bool → List Path) : Visit → List Path
  | .fault _ => []
  | .entry path kind inside => here path (kind = .directory) ++ descendAll here inside

def descendAll (here : Path → Bool → List Path) : List Visit → List Path
  | [] => []
  | v :: rest => descend here v ++ descendAll here rest
end

/-- The names that show in a directory, with their paths, and whether directories stand there. -/
def children (disk : Disk) (path : Path) : List (Bytes × Path × Bool) :=
  match disk.find true path with
  | .ok (_, node) =>
    (node.entries.filter (isShown ·.1)).map fun (name, child) =>
      let next := path.join name
      (name, next, match child with
        | .directory _ => true
        | .file .. => false
        | .link _ => disk.isDirectory next)
  | .error _ => []

/-- The special names that a wildcard with a dot in front takes, the last one first. -/
def specialNames (p : Piece) : List Bytes :=
  if p.head? = some (.single (.literal '.')) then [[dot, dot], [dot]].filter (takes p) else []

/-- Whether a literal component leads on from a path. -/
def leadsOn (disk : Disk) (name : Text) (next : Path) (isDirectory : Bool) : Bool :=
  if name = ['.'] ∨ name = ['.', '.'] then isDirectory
  else (disk.find true next).isOk || (disk.find false next).isOk

/-- The paths that the pieces find below `path`; with `needDirectory` only directories. -/
def search (disk : Disk) (needDirectory : Bool) : List Piece → Path → (isDirectory : Bool) → List Path
  | [], _, _ => []
  | p :: rest, path, isDirectory =>
    let onward (next : Path) (d : Bool) : List Path :=
      if rest.isEmpty then (if needDirectory && !d then [] else [next])
      else search disk needDirectory rest next d
    match Glob.literalText? p with
    | some name =>
      let next := path.join (Utf8.encode name)
      if leadsOn disk name next isDirectory then onward next (disk.isDirectory next) else []
    | none =>
      if !isDirectory then []
      else if isDeep p then
        descendAll (fun next d =>
          match rest with
          | [] => if d then [next] else []
          | q :: rest' =>
            if takes q (next.fileName?.getD []) then
              if rest'.isEmpty then (if needDirectory && !d then [] else [next])
              else search disk needDirectory rest' next d
            else []) (below disk path)
      else
        ((specialNames p).flatMap fun name =>
            let next := path.join name
            onward next (disk.isDirectory next)) ++
          (children disk path).flatMap fun (name, next, d) =>
            if takes p name then onward next d else []

/-- Deep pieces in a row count as one. -/
def collapse : List Piece → List Piece
  | p :: q :: rest => if isDeep p && isDeep q then collapse (q :: rest) else p :: collapse (q :: rest)
  | ps => ps

/-- The component texts of a pattern below its root; a slash at the end adds none. -/
def pieceTexts (pattern : Text) : List Text :=
  let rest := (Text.afterFirst? '/' pattern).getD pattern
  if rest = [] then (if pattern = [] then [] else [[]])
  else ((Text.beforeLast? '/' rest).getD rest).splitOn '/'

/-- The pattern of a target: a relative one is looked for below the working directory, the name of
which is taken literally. -/
def patternOf (workingDirectory : Path) (target : Text) : Text :=
  if target.head? = some '/' then target
  else Glob.escape workingDirectory.shown ++ '/' :: target

def expand (disk : Disk) (pattern : Text) : Except Glob.SyntaxFault (List Path) := do
  let _ ← Glob.parse pattern
  let pieces ← (pieceTexts pattern).mapM Glob.parse
  let start : Path := if pattern.head? = some '/' then ⟨[slash]⟩ else ⟨[dot]⟩
  return search disk (pattern.getLast? = some '/') (collapse pieces) start (disk.isDirectory start)

end Folio.Target
