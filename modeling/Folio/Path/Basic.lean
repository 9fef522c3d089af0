import Folio.Text.Utf8

/-!
# Paths

A path is kept as it was written, and read as a list of components: slashes that repeat or end the
path and dots in the middle say nothing. Joining works on the bytes, everything else on components.
The names that a file system gives are bytes and need not be text. Where a path is shown, or a file is
named inside a tree, U+FFFD stands for what is no text, so that two paths may be shown alike.
-/
namespace Folio

structure Path where
  bytes : Bytes
  deriving DecidableEq

namespace Path

abbrev slash : UInt8 := 47

abbrev dot : UInt8 := 46

@[simp] theorem slash_ne_dot : slash ≠ dot := by decide

@[simp] theorem dot_ne_slash : dot ≠ slash := by decide

@[simp] theorem nul_ne_slash : 0 ≠ slash := by decide

@[simp] theorem nul_ne_dot : 0 ≠ dot := by decide

end Path

/-- One component of a path. `here` occurs only as the first component of a relative path. -/
inductive Component where
  | root
  | here
  | up
  | name (n : Bytes)
  deriving DecidableEq

namespace Component
open Folio.Path

/-- The component that a piece between two slashes stands for. -/
def ofPiece? (piece : Bytes) : Option Component :=
  if piece = [] ∨ piece = [dot] then none
  else if piece = [dot, dot] then some .up
  else some (.name piece)

/-- The piece that a component is written as, if it needs one. -/
def piece? : Component → Option Bytes
  | .root => none
  | .here => none
  | .up => some [dot, dot]
  | .name n => some n

end Component

namespace Path

def ofText (t : Text) : Path := ⟨Utf8.encode t⟩

def shown (p : Path) : Text := Utf8.decodeLossy p.bytes

def isAbsolute (p : Path) : Bool := p.bytes.head? = some slash

def components (p : Path) : List Component :=
  if p.isAbsolute then .root :: (p.bytes.splitOn slash).filterMap Component.ofPiece?
  else match p.bytes.splitOn slash with
    | [] => []
    | piece :: rest =>
      if piece = [dot] then .here :: rest.filterMap Component.ofPiece?
      else (piece :: rest).filterMap Component.ofPiece?

/-- Components written with single slashes between them. -/
def written (components : List Component) : Bytes :=
  (if components.head? = some .root then [slash] else []) ++
    [slash].intercalate (components.filterMap Component.piece?)

/-- Components as they are shown, name by name. -/
def posix (components : List Component) : Text :=
  (if components.head? = some .root then ['/'] else []) ++
    ['/'].intercalate ((components.filterMap Component.piece?).map Utf8.decodeLossy)

/-- The path `rest` as seen from `base`: an absolute `rest` stands for itself. -/
def join (base : Path) (rest : Bytes) : Path :=
  if rest.head? = some slash then ⟨rest⟩
  else if base.bytes = [] ∨ base.bytes.getLast? = some slash then ⟨base.bytes ++ rest⟩
  else ⟨base.bytes ++ slash :: rest⟩

theorem join_absolute (base : Path) (rest : Bytes) : base.join (slash :: rest) = ⟨slash :: rest⟩ := rfl

/-- The last component, if it is a name. -/
def fileName? (p : Path) : Option Bytes :=
  match p.components.getLast? with
  | some (.name n) => some n
  | _ => none

def nameText? (p : Path) : Option Text := p.fileName?.bind Utf8.decode?

/-- What follows the last dot of a file name, unless that dot is the first byte. -/
def extensionOf? (name : Bytes) : Option Bytes :=
  match (name.splitOn dot).reverse with
  | last :: rest => if [dot].intercalate rest.reverse = [] then none else some last
  | [] => none

def extension? (p : Path) : Option Text := (p.fileName?.bind extensionOf?).bind Utf8.decode?

end Path
end Folio
