import Folio.Document.Write

/-!
# Documents written piece by piece

A document is written in many small pieces, one behind the other, and a batch of files is read only when
all in front of it is written. An output takes of each piece what fits. The first piece that does not fit
whole ends the document: nothing behind it is written, and no further file is read.
-/
namespace Folio

/-- An output, with the text that it took so far. It takes `room` more bytes, if it has a limit. -/
structure Output where
  taken : Text
  room : Option Nat

namespace Output

/-- An output that takes `limit` bytes, before anything is written. -/
def blank (limit : Option Nat) : Output := ⟨[], limit⟩

def put (out : Output) (piece : Text) : Except Document.Break Output :=
  match out.room with
  | none => .ok ⟨out.taken ++ piece, none⟩
  | some room =>
    let bytes := Utf8.encode piece
    if bytes.length ≤ room then .ok ⟨out.taken ++ piece, some (room - bytes.length)⟩
    else .error (.full (Utf8.encode out.taken ++ bytes.take room))

def putAll (out : Output) (pieces : List Text) : Except Document.Break Output := pieces.foldlM put out

end Output

namespace Outline

mutual
/-- Write the elements of an outline. -/
def emit (level : Nat) : Outline → Output → Except Document.Break Output
  | .node fs ds, out => do
    let out ← fs.foldlM
      (fun out name =>
        out.putAll [indent level, "<file path=\"".toList, Markup.Attribute.escape name, "\" />\n".toList])
      out
    emitAll level ds out

def emitAll (level : Nat) : List (Text × Outline) → Output → Except Document.Break Output
  | [], out => .ok out
  | (name, o) :: rest, out => do
    let out ← out.putAll
      [indent level, "<directory name=\"".toList, Markup.Attribute.escape name, "\">\n".toList]
    let out ← emit (level + 1) o out
    let out ← out.putAll [indent level, "</directory>\n".toList]
    emitAll level rest out
end

end Outline

namespace Document

/-- Write the content of a file between the marks of its section, ended by a newline unless it is empty. -/
def emitSection (text : Text) (out : Output) : Except Break Output :=
  let inner := Markup.CharacterData.escape text
  let ending := if inner.isEmpty || inner.getLast? = some '\n' then [] else [['\n']]
  out.putAll (["    ".toList, Markup.CharacterData.opening, ['\n'], inner] ++ ending ++
    [Markup.CharacterData.closing, ['\n']])

def emitNote (fault : Option Disk.Fault) (out : Output) : Except Break Output :=
  match fault with
  | none => .ok out
  | some fault =>
    out.putAll ["    <error>".toList,
      Markup.Attribute.escape ("Error reading file: ".toList ++ fault.message), "</error>\n".toList]

def emitBlock (f : SourceFile) (timestamp : Text) (content : Content) (out : Output) :
    Except Break Output := do
  let out ← out.putAll
    ["  <file name=\"".toList, Markup.Attribute.escape f.name, "\" language=\"".toList,
      Markup.Attribute.escape f.language, "\" modified=\"".toList, timestamp, "\" size=\"".toList,
      Text.ofNat f.size, "\">\n".toList]
  let out ← emitSection content.text out
  let out ← emitNote content.fault out
  out.put "  </file>\n".toList

def emitFooter (emitted : List Text) (out : Output) : Except Break Output := do
  let out ← out.put "  <filetree>\n".toList
  let out ← (Outline.ofNames emitted).emit 2 out
  let out ← out.put "  </filetree>\n".toList
  out.put "</src>\n".toList

/-- A document on its way to an output. -/
structure Progress where
  out : Output
  report : Report
  events : List Event

def Progress.add (p : Progress) (f : SourceFile) (loaded : Except Disk.Fault Content) :
    Except Break Progress :=
  match loaded with
  | .error fault =>
    .ok { p with
      report := { p.report with skipped := p.report.skipped + 1 }
      events := p.events ++ [.unopened f.path fault] }
  | .ok content =>
    match Calendar.timestamp? f.modified with
    | none => .error .undated
    | some timestamp => do
      let out ← emitBlock f timestamp content p.out
      return {
        out
        report := { p.report with
          emitted := p.report.emitted ++ [f.name]
          readErrors := p.report.readErrors + (if content.fault.isSome then 1 else 0) }
        events := p.events ++ (content.fault.map (Event.unread f.path)).toList }

def Progress.addBatch (read : Reader) (p : Progress) (batch : List SourceFile) :
    Except Break Progress :=
  (batch.zip (batch.map fun f => read f.path)).foldlM (fun p (f, loaded) => p.add f loaded) p

/-- Write the document of some files to an output that takes `limit` bytes, piece by piece. -/
def emit (jobs : Nat) (limit : Option Nat) (read : Reader) (files : List SourceFile) :
    Except Break Document := do
  let out ← (Output.blank limit).put header
  let p ← (batches (batchSize jobs) files).foldlM (Progress.addBatch read) ⟨out, ⟨[], 0, 0⟩, []⟩
  let out ← emitFooter p.report.emitted p.out
  return ⟨out.taken, p.report, p.events ++ closingEvents p.report⟩

end Document
end Folio
