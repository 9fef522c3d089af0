import Folio.Index
import Folio.Yaml.Layout
import Folio.Yaml.Node

/-!
# YAML documents

A document is a node whose anchors are numbers, given out in the order of the text. A new name takes the
number of names so far, and so does a name that is used again; an alias takes the number that its name has
where it stands. Of several nodes with one number the last is meant.
-/
namespace Folio.Yaml

namespace Node

def numberAnchor (names : Index Text Nat) : Option Text → Option Nat × Index Text Nat
  | none => (none, names)
  | some name => (some names.length, names.insert name names.length)

mutual

/-- The node with numbers for names; `names` holds the numbers given out before it. An alias of an
unknown name is refused. -/
def numbered? (names : Index Text Nat) : Node Text → Option (Node Nat × Index Text Nat)
  | .alias name => (names.find? name).map fun n => (.alias n, names)
  | .scalar anchor text plain =>
    let (anchor, names) := numberAnchor names anchor
    some (.scalar anchor text plain, names)
  | .sequence anchor items => do
    let (anchor, names) := numberAnchor names anchor
    let (items, names) ← numberedItems? names items
    some (.sequence anchor items, names)
  | .mapping anchor pairs => do
    let (anchor, names) := numberAnchor names anchor
    let (pairs, names) ← numberedPairs? names pairs
    some (.mapping anchor pairs, names)

def numberedItems? (names : Index Text Nat) : List (Node Text) → Option (List (Node Nat) × Index Text Nat)
  | [] => some ([], names)
  | n :: rest => do
    let (n, names) ← numbered? names n
    let (rest, names) ← numberedItems? names rest
    some (n :: rest, names)

def numberedPairs? (names : Index Text Nat) :
    List (Node Text × Node Text) → Option (List (Node Nat × Node Nat) × Index Text Nat)
  | [] => some ([], names)
  | (k, v) :: rest => do
    let (k, names) ← numbered? names k
    let (v, names) ← numbered? names v
    let (rest, names) ← numberedPairs? names rest
    some ((k, v) :: rest, names)

end

mutual

/-- The nodes with an anchor, in the order of the text. -/
def anchored (n : Node Nat) : List (Nat × Node Nat) :=
  match n with
  | .alias _ => []
  | .scalar anchor text plain => anchor.toList.map fun a => (a, .scalar anchor text plain)
  | .sequence anchor items =>
    (anchor.toList.map fun a => (a, .sequence anchor items)) ++ anchoredItems items
  | .mapping anchor pairs =>
    (anchor.toList.map fun a => (a, .mapping anchor pairs)) ++ anchoredPairs pairs

def anchoredItems : List (Node Nat) → List (Nat × Node Nat)
  | [] => []
  | n :: rest => anchored n ++ anchoredItems rest

def anchoredPairs : List (Node Nat × Node Nat) → List (Nat × Node Nat)
  | [] => []
  | (k, v) :: rest => anchored k ++ anchored v ++ anchoredPairs rest

end

end Node

structure Document where
  root : Node Nat

namespace Document

/-- The document of a text. A text without documents is read as a node that is left out. -/
def ofText? (t : Text) : Option Document := do
  match ← Node.ofTokens? (← tokens? t) with
  | none => some ⟨Node.omitted⟩
  | some node => (node.numbered? []).map fun (root, _) => ⟨root⟩

/-- The node that is meant: an alias means the node with its number. -/
def meant? (d : Document) : Node Nat → Option (Node Nat)
  | .alias n => d.root.anchored.reverse.lookup n
  | node => some node

def text? (d : Document) (node : Node Nat) : Option Text := do
  match ← d.meant? node with
  | .scalar _ text _ => some text
  | _ => none

/-- The items of a sequence. A node that is left out has none. -/
def items? (d : Document) (node : Node Nat) : Option (List (Node Nat)) := do
  match ← d.meant? node with
  | .sequence _ items => some items
  | .scalar _ [] true => some []
  | _ => none

/-- The pairs of a mapping. A node that is left out has none. -/
def pairs? (d : Document) (node : Node Nat) : Option (List (Node Nat × Node Nat)) := do
  match ← d.meant? node with
  | .mapping _ pairs => some pairs
  | .scalar _ [] true => some []
  | _ => none

end Document
end Folio.Yaml
