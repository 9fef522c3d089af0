import Folio.Index

/-!
# Directory trees

A node is a file, a symbolic link or a directory. The entries of a directory stand in ascending order
of their names. A place is the list of names that leads down to a node.
-/
namespace Folio

inductive Node where
  /-- A file with its content and the time of its last change, in whole seconds. -/
  | file (content : Bytes) (modified : Int)
  | link (target : Bytes)
  | directory (entries : List (Bytes × Node))

/-- The names from the top of a tree down to a node. -/
abbrev Place := List Bytes

namespace Node

/-- Induction over a tree, with a hypothesis for each entry of a directory. -/
@[elab_as_elim]
theorem inductionOn {P : Node → Prop} (n : Node)
    (file : ∀ content modified, P (.file content modified))
    (link : ∀ target, P (.link target))
    (directory : ∀ entries : List (Bytes × Node), (∀ e ∈ entries, P e.2) → P (.directory entries)) :
    P n :=
  @Node.rec P (fun es => ∀ e ∈ es, P e.2) (fun e => P e.2)
    file link directory (fun _ h => absurd h List.not_mem_nil)
    (fun _ _ hh ht e he => (List.mem_cons.1 he).elim (fun h => h ▸ hh) (ht e))
    (fun _ _ h => h) n

def empty : Node := .directory []

def isDirectory : Node → Bool
  | .directory _ => true
  | _ => false

/-- The entries of a directory; files and links have none. -/
def entries : Node → List (Bytes × Node)
  | .directory es => es
  | _ => []

def child? (name : Bytes) (n : Node) : Option Node := n.entries.lookup name

def at? (n : Node) : Place → Option Node
  | [] => some n
  | name :: rest => (n.child? name).bind fun c => c.at? rest

/-- The tree with `new` at a place; directories that are missing on the way are made. -/
def put (new : Node) : Place → Node → Node
  | [], _ => new
  | name :: rest, n =>
    .directory (Index.alter name (fun old => put new rest (old.getD empty)) n.entries)

def remove : Place → Node → Node
  | [], n => n
  | [name], n => .directory (Index.erase name n.entries)
  | name :: rest, n =>
    match n.child? name with
    | some c => .directory (Index.insert name (remove rest c) n.entries)
    | none => n

end Node
end Folio
