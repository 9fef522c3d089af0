import Folio.Yaml.Token

/-!
# YAML nodes

The tokens of a stream are read as one tree of scalars, sequences and mappings. A node that is left out
is the empty plain scalar. A second document is refused. Anchors are names at first, and numbers later.
-/
namespace Folio.Yaml

/-- A node whose anchors are of type `α`. -/
inductive Node (α : Type) where
  | alias (anchor : α)
  | scalar (anchor : Option α) (text : Text) (plain : Bool)
  | sequence (anchor : Option α) (items : List (Node α))
  | mapping (anchor : Option α) (pairs : List (Node α × Node α))

namespace Node

/-- The node that is not written. -/
def omitted {α : Type} : Node α := .scalar none [] true

def next (ts : List Token) (among : List Token) : Bool :=
  match ts with
  | [] => false
  | t :: _ => among.contains t

structure Properties where
  anchor : Option Text
  tagged : Bool

/-- An anchor and a tag, in either order. The handle of a tag must have been declared. -/
def properties? (handles : List Text) (ts : List Token) : Option (Properties × List Token) :=
  let declared (handle : Text) : Bool := handle = [] || handles.contains handle
  match ts with
  | .anchor a :: .tag h :: rest => if declared h then some (⟨some a, true⟩, rest) else none
  | .tag h :: .anchor a :: rest => if declared h then some (⟨some a, true⟩, rest) else none
  | .anchor a :: rest => some (⟨some a, false⟩, rest)
  | .tag h :: rest => if declared h then some (⟨none, true⟩, rest) else none
  | ts => some (⟨none, false⟩, ts)

mutual

/-- Read a node; `block` allows block collections, and `bare` a sequence whose items are not indented.
The number bounds how deep calls are nested: at most three of them read the same token. -/
def read? (handles : List Text) (block bare : Bool) : Nat → List Token → Option (Node Text × List Token)
  | 0, _ => none
  | n + 1, ts =>
    match ts with
    | .alias name :: rest => some (.alias name, rest)
    | ts => do
      let (p, ts) ← properties? handles ts
      match ts, block, bare with
      | .item :: _, _, true => do
        let (items, rest) ← bareItems? handles n ts
        some (.sequence p.anchor items, rest)
      | .scalar t plain :: rest, _, _ => some (.scalar p.anchor t plain, rest)
      | .sequenceOpen :: rest, _, _ => do
        let (items, rest) ← flowItems? handles true n rest
        some (.sequence p.anchor items, rest)
      | .mappingOpen :: rest, _, _ => do
        let (pairs, rest) ← flowPairs? handles true n rest
        some (.mapping p.anchor pairs, rest)
      | .blockSequence :: rest, true, _ => do
        let (items, rest) ← blockItems? handles n rest
        some (.sequence p.anchor items, rest)
      | .blockMapping :: rest, true, _ => do
        let (pairs, rest) ← blockPairs? handles n rest
        some (.mapping p.anchor pairs, rest)
      | ts, _, _ => if p.anchor.isSome || p.tagged then some (.scalar p.anchor [] true, ts) else none

/-- Read a node, unless one of the tokens `ending` comes next. -/
def readUnless? (handles : List Text) (block bare : Bool) (ending : List Token) :
    Nat → List Token → Option (Node Text × List Token)
  | 0, _ => none
  | n + 1, ts => if next ts ending then some (omitted, ts) else read? handles block bare n ts

/-- The items of a block sequence up to its end. -/
def blockItems? (handles : List Text) : Nat → List Token → Option (List (Node Text) × List Token)
  | 0, _ => none
  | n + 1, ts =>
    match ts with
    | .item :: rest => do
      let (item, rest) ← readUnless? handles true false [.item, .blockEnd] n rest
      let (items, rest) ← blockItems? handles n rest
      some (item :: items, rest)
    | .blockEnd :: rest => some ([], rest)
    | _ => none

/-- The items of a sequence that is not indented, as far as they go. -/
def bareItems? (handles : List Text) : Nat → List Token → Option (List (Node Text) × List Token)
  | 0, _ => none
  | n + 1, ts =>
    match ts with
    | .item :: rest => do
      let (item, rest) ← readUnless? handles true false [.item, .key, .value, .blockEnd] n rest
      let (items, rest) ← bareItems? handles n rest
      some (item :: items, rest)
    | ts => some ([], ts)

/-- The pairs of a block mapping up to its end. -/
def blockPairs? (handles : List Text) : Nat → List Token → Option (List (Node Text × Node Text) × List Token)
  | 0, _ => none
  | n + 1, ts =>
    match ts with
    | .key :: rest => do
      let (key, rest) ← readUnless? handles true true [.key, .value, .blockEnd] n rest
      let (value, rest) ← match rest with
        | .value :: rest => readUnless? handles true true [.key, .value, .blockEnd] n rest
        | rest => some (omitted, rest)
      let (pairs, rest) ← blockPairs? handles n rest
      some ((key, value) :: pairs, rest)
    | .blockEnd :: rest => some ([], rest)
    | _ => none

/-- The items of a flow sequence up to its end. Each item but the first follows a comma. -/
def flowItems? (handles : List Text) (first : Bool) :
    Nat → List Token → Option (List (Node Text) × List Token)
  | 0, _ => none
  | n + 1, ts =>
    match ts, first with
    | .sequenceClose :: rest, _ => some ([], rest)
    | .comma :: .sequenceClose :: rest, false => some ([], rest)
    | .comma :: rest, false => do
      let (item, rest) ← flowItem? handles n rest
      let (items, rest) ← flowItems? handles false n rest
      some (item :: items, rest)
    | ts, true => do
      let (item, rest) ← flowItem? handles n ts
      let (items, rest) ← flowItems? handles false n rest
      some (item :: items, rest)
    | _, false => none

/-- An item of a flow sequence. A pair stands for a mapping of its own; where its key is missing, the
token in place of it is passed over. -/
def flowItem? (handles : List Text) : Nat → List Token → Option (Node Text × List Token)
  | 0, _ => none
  | n + 1, ts =>
    match ts with
    | .key :: rest => do
      let (key, rest) ←
        if next rest [.value, .comma, .sequenceClose] then some (omitted, rest.drop 1)
        else read? handles false false n rest
      let (value, rest) ← match rest with
        | .value :: rest => readUnless? handles false false [.comma, .sequenceClose] n rest
        | rest => some (omitted, rest)
      some (.mapping none [(key, value)], rest)
    | ts => read? handles false false n ts

/-- The pairs of a flow mapping up to its end. Each pair but the first follows a comma. -/
def flowPairs? (handles : List Text) (first : Bool) :
    Nat → List Token → Option (List (Node Text × Node Text) × List Token)
  | 0, _ => none
  | n + 1, ts =>
    match ts, first with
    | .mappingClose :: rest, _ => some ([], rest)
    | .comma :: .mappingClose :: rest, false => some ([], rest)
    | .comma :: rest, false => do
      let (pair, rest) ← flowPair? handles n rest
      let (pairs, rest) ← flowPairs? handles false n rest
      some (pair :: pairs, rest)
    | ts, true => do
      let (pair, rest) ← flowPair? handles n ts
      let (pairs, rest) ← flowPairs? handles false n rest
      some (pair :: pairs, rest)
    | _, false => none

/-- A pair of a flow mapping; without a colon the node is a key. -/
def flowPair? (handles : List Text) : Nat → List Token → Option ((Node Text × Node Text) × List Token)
  | 0, _ => none
  | n + 1, ts =>
    match ts with
    | .key :: rest => do
      let (key, rest) ← readUnless? handles false false [.value, .comma, .mappingClose] n rest
      let (value, rest) ← match rest with
        | .value :: rest => readUnless? handles false false [.comma, .mappingClose] n rest
        | rest => some (omitted, rest)
      some ((key, value), rest)
    | ts => do
      let (key, rest) ← read? handles false false n ts
      some ((key, omitted), rest)

end

/-- The handles that need no declaration. -/
def commonHandles : List Text := [['!'], ['!', '!']]

/-- The directives of a document: one version, which must be known, and each handle once. -/
def directives? (versioned : Bool) (handles : List Text) : List Token → Option (List Text × List Token)
  | .version major minor :: rest =>
    if versioned || major ≠ 1 || !(minor = 1 || minor = 2) then none
    else directives? true handles rest
  | .handle name :: rest =>
    if handles.contains name then none else directives? versioned (name :: handles) rest
  | ts => some (handles ++ commonHandles, ts)

/-- Whether a token can only begin a document with directives or marks. -/
def announces : Token → Bool
  | .version .. | .handle _ | .documentStart => true
  | _ => false

/-- The document of a stream of tokens; the inner `none` is a stream without documents. -/
def ofTokens? (ts : List Token) : Option (Option (Node Text)) :=
  let calls := 4 * ts.length + 4
  match ts with
  | [] => some none
  | t :: _ => do
    let (node, rest) ←
      if announces t then do
        let (handles, ts) ← directives? false [] ts
        match ts with
        | .documentStart :: rest =>
          match rest with
          | [] => some (omitted, [])
          | t :: _ =>
            if announces t || t = .documentEnd then some (omitted, rest)
            else read? handles true false calls rest
        | _ => none
      else read? commonHandles true false calls ts
    if rest.all (· = .documentEnd) then some (some node) else none

end Node
end Folio.Yaml
