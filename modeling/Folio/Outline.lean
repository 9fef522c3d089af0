import Folio.Index
import Folio.Markup.Attribute

/-!
# Outlines

An outline sorts the names of files into the directories that their segments spell. Files keep the order
in which they came, directories stand in ascending order. It is written with one element on each line,
files before directories.
-/
namespace Folio

inductive Outline where
  | node (files : List Text) (directories : List (Text × Outline))

namespace Outline

def empty : Outline := .node [] []

def files : Outline → List Text
  | .node fs _ => fs

def directories : Outline → Index Text Outline
  | .node _ ds => ds

/-- The segments of a name; repeated slashes and slashes at the ends separate nothing. -/
def segments (name : Text) : List Text := (name.splitOn '/').filter (· ≠ [])

def insertAt (name : Text) : List Text → Outline → Outline
  | [], .node fs ds => .node (fs ++ [name]) ds
  | d :: rest, .node fs ds =>
    .node fs (Index.alter d (fun old => insertAt name rest (old.getD empty)) ds)

/-- Put a file into the directory of all its segments but the last; without segments it is no file. -/
def insert (o : Outline) (name : Text) : Outline :=
  match segments name with
  | [] => o
  | s :: rest => insertAt name (s :: rest).dropLast o

def ofNames (names : List Text) : Outline := names.foldl insert empty

mutual
def count : Outline → Nat
  | .node fs ds => fs.length + countAll ds

def countAll : List (Text × Outline) → Nat
  | [] => 0
  | (_, o) :: rest => count o + countAll rest
end

def indent (level : Nat) : Text := List.replicate (2 * level) ' '

def fileLine (level : Nat) (name : Text) : Text :=
  indent level ++ "<file ".toList ++ Markup.Attribute.render "path".toList name ++ " />\n".toList

mutual
/-- The elements of an outline, indented for their level. -/
def render (level : Nat) : Outline → Text
  | .node fs ds => fs.flatMap (fileLine level) ++ renderAll level ds

def renderAll (level : Nat) : List (Text × Outline) → Text
  | [] => []
  | (name, o) :: rest =>
    indent level ++ "<directory ".toList ++ Markup.Attribute.render "name".toList name ++ ">\n".toList ++
      render (level + 1) o ++ indent level ++ "</directory>\n".toList ++ renderAll level rest
end

end Outline
end Folio
