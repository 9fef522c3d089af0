import Folio.Disk.Basic
import Folio.Document.Block
import Folio.Event
import Folio.Outline

/-!
# Documents

A document has a block for each file that opens, and an outline of these files at the end. Files are read
ahead in batches, and a batch is written before the next one is read. An output with a limit takes the
first bytes of the document.
-/
namespace Folio

/-- What opening and reading a file comes to. -/
abbrev Reader := Path → Except Disk.Fault Content

/-- Files on a disk; bytes that are no text are replaced. -/
def Disk.reader (disk : Disk) : Reader := fun path => do
  match ← disk.read path with
  | .ok bytes => .ok ⟨Utf8.decodeLossy bytes, none⟩
  | .error fault => .ok ⟨[], some fault⟩

structure Report where
  /-- The names of the files that have a block, in order. -/
  emitted : List Text
  skipped : Nat
  readErrors : Nat
  deriving DecidableEq

namespace Document

/-- The number of files that are read ahead for so many jobs. -/
def batchSize (jobs : Nat) : Nat := if jobs ≤ 1 then 1 else 4 * jobs

/-- A list cut into pieces of `size`, the last of which may be shorter. -/
def batches {α : Type} (size : Nat) (xs : List α) : List (List α) :=
  if _h : xs = [] ∨ size = 0 then []
  else xs.take size :: batches size (xs.drop size)
termination_by xs.length
decreasing_by
  cases xs with
  | nil => simp_all
  | cons x xs =>
    simp only [List.length_drop, List.length_cons]
    omega

/-- The part of a document that is written already. -/
structure Draft where
  blocks : List Text
  report : Report
  events : List Event

def Draft.empty : Draft := ⟨[], ⟨[], 0, 0⟩, []⟩

def header : Text := "<src>\n".toList

def Draft.text (d : Draft) : Text := header ++ d.blocks.flatten

/-- Write one file that was read. A file whose time has no date ends the document then and there; what
is left is the draft before it. -/
def Draft.add (d : Draft) (f : SourceFile) (loaded : Except Disk.Fault Content) :
    Except Draft Draft :=
  match loaded with
  | .error fault =>
    .ok { d with
      report := { d.report with skipped := d.report.skipped + 1 }
      events := d.events ++ [.unopened f.path fault] }
  | .ok content =>
    match Calendar.timestamp? f.modified with
    | none => .error d
    | some timestamp =>
      .ok
        { blocks := d.blocks ++ [block f timestamp content]
          report := { d.report with
            emitted := d.report.emitted ++ [f.name]
            readErrors := d.report.readErrors + (if content.fault.isSome then 1 else 0) }
          events := d.events ++ (content.fault.map (Event.unread f.path)).toList }

def Draft.addBatch (read : Reader) (d : Draft) (batch : List SourceFile) : Except Draft Draft :=
  (batch.zip (batch.map fun f => read f.path)).foldlM (fun d (f, loaded) => d.add f loaded) d

/-- The outline of the files that were written, and the end of the document. -/
def footer (emitted : List Text) : Text :=
  "  <filetree>\n".toList ++ (Outline.ofNames emitted).render 2 ++
    "  </filetree>\n</src>\n".toList

def closingEvents (r : Report) : List Event :=
  [.summarized (Outline.ofNames r.emitted).count, .wrote r.emitted.length r.skipped r.readErrors]

end Document

structure Document where
  text : Text
  report : Report
  events : List Event

namespace Document

def Draft.finish (d : Draft) : Document :=
  ⟨d.text ++ footer d.report.emitted, d.report, d.events ++ closingEvents d.report⟩

/-- Why there is no finished document. -/
inductive Break where
  /-- A file has a time without a date. -/
  | undated
  /-- The output took these bytes and no more. -/
  | full (written : Bytes)
  deriving DecidableEq

/-- The document of some files for an output without limits; on the left the text that was written
when a time without a date was met. -/
def compose (jobs : Nat) (read : Reader) (files : List SourceFile) : Except Text Document :=
  match (batches (batchSize jobs) files).foldlM (Draft.addBatch read) Draft.empty with
  | .ok d => .ok d.finish
  | .error d => .error d.text

/-- Whether a text fits into an output that takes `limit` bytes. -/
def fits (limit : Option Nat) (text : Text) : Bool :=
  match limit with
  | none => true
  | some n => (Utf8.encode text).length ≤ n

def cut (limit : Option Nat) (text : Text) : Bytes :=
  match limit with
  | none => Utf8.encode text
  | some n => (Utf8.encode text).take n

/-- Write the document of some files to an output that takes `limit` bytes. -/
def write (jobs : Nat) (limit : Option Nat) (read : Reader) (files : List SourceFile) :
    Except Break Document :=
  match compose jobs read files with
  | .ok document => if fits limit document.text then .ok document else .error (.full (cut limit document.text))
  | .error text => if fits limit text then .error .undated else .error (.full (cut limit text))

end Document
end Folio
