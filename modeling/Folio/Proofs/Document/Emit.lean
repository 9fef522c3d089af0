import Folio.Document.Emit
import Folio.Proofs.Document.Batches
import Folio.Proofs.Outline.Placement

/-!
# Documents that are cut

To write a document piece by piece comes to writing its text as one piece, and an output takes of a piece
what fits. So where a document does not fit, its first bytes are written and no others, wherever the writing
came to its end.
-/
namespace Folio

namespace Output
open Document (Break)
variable {out : Output} {s t : Text} {emit emit' : Output → Except Break Output} {limit : Option Nat}

theorem put_nil (out : Output) : out.put [] = .ok out := by
  obtain ⟨taken, room⟩ := out
  cases room <;> simp [put]

/-- To write one text and then another is to write both as one piece. Where the first does not fit, the
second is not begun. -/
theorem put_append (out : Output) (s t : Text) :
    out.put (s ++ t) = out.put s >>= fun next => next.put t := by
  obtain ⟨taken, room⟩ := out
  cases room with
  | none => simp [put, bind, Except.bind]
  | some room =>
    simp only [put, Utf8.encode_append, List.length_append]
    by_cases hs : (Utf8.encode s).length ≤ room
    · have hcut : (Utf8.encode s).take room = Utf8.encode s := List.take_of_length_le hs
      have hfit : (Utf8.encode t).length ≤ room - (Utf8.encode s).length ↔
          (Utf8.encode s).length + (Utf8.encode t).length ≤ room := by omega
      simp only [if_pos hs, bind, Except.bind, hfit, List.take_append, hcut, List.append_assoc,
        Nat.sub_sub, Utf8.encode_append]
    · have hst : ¬ (Utf8.encode s).length + (Utf8.encode t).length ≤ room := by omega
      have hcut : (Utf8.encode s ++ Utf8.encode t).take room = (Utf8.encode s).take room :=
        List.take_append_of_le_length (by omega)
      simp only [if_neg hs, if_neg hst, hcut, bind, Except.bind]

/-- A text on an output that is blank: it is taken whole or cut at the limit. -/
theorem put_blank (limit : Option Nat) (t : Text) : (blank limit).put t =
    if Document.fits limit t then .ok ⟨t, limit.map (· - (Utf8.encode t).length)⟩
    else .error (.full (Document.cut limit t)) := by
  cases limit with
  | none => rfl
  | some n => simp [put, blank, Document.fits, Document.cut]

/-- A way of writing writes a text if it always comes to writing the text as one piece. -/
def Writes (emit : Output → Except Break Output) (t : Text) : Prop := ∀ out, emit out = out.put t

theorem Writes.nil : Writes .ok [] := fun out => (put_nil out).symm

theorem Writes.piece (t : Text) : Writes (·.put t) t := fun _ => rfl

theorem Writes.bind (h : Writes emit s) (h' : Writes emit' t) :
    Writes (fun out => emit out >>= emit') (s ++ t) := by
  intro out
  dsimp only
  rw [put_append, h]
  exact congrArg (out.put s >>= ·) (funext h')

theorem Writes.congr (h : Writes emit s) (he : s = t) : Writes emit t := he ▸ h

theorem Writes.foldlM {α : Type} {step : Output → α → Except Break Output} {text : α → Text}
    (h : ∀ a, Writes (step · a) (text a)) (as : List α) :
    Writes (fun out => as.foldlM step out) (as.flatMap text) := by
  induction as with
  | nil => exact Writes.nil
  | cons a as ih =>
    intro out
    dsimp only
    rw [List.foldlM_cons]
    exact (h a).bind ih out

theorem Writes.pieces (pieces : List Text) : Writes (·.putAll pieces) pieces.flatten := by
  have hall := Writes.foldlM Writes.piece pieces
  rwa [List.flatMap_id'] at hall

end Output

namespace Outline
open Output

theorem writes_emitAll {ds : List (Text × Outline)} {level : Nat}
    (h : ∀ e ∈ ds, ∀ level, Writes (e.2.emit level) (e.2.render level)) :
    Writes (emitAll level ds) (renderAll level ds) := by
  induction ds with
  | nil => exact Writes.nil
  | cons e ds ih =>
    obtain ⟨name, o⟩ := e
    have hall := (Writes.pieces
      [indent level, "<directory name=\"".toList, Markup.Attribute.escape name, "\">\n".toList]).bind
        ((h (name, o) (by simp) (level + 1)).bind
          ((Writes.pieces [indent level, "</directory>\n".toList]).bind
            (ih fun e he => h e (by simp [he]))))
    intro out
    rw [emitAll]
    refine hall.congr ?_ out
    simp [renderAll, Markup.Attribute.render]

theorem writes_emit (o : Outline) (level : Nat) : Writes (o.emit level) (o.render level) := by
  induction o using inductionOn generalizing level with
  | node fs ds ih =>
    have hfile (name : Text) : Writes
        (·.putAll [indent level, "<file path=\"".toList, Markup.Attribute.escape name, "\" />\n".toList])
        (fileLine level name) :=
      (Writes.pieces _).congr (by simp [fileLine, Markup.Attribute.render])
    intro out
    rw [emit, render]
    exact (Writes.foldlM hfile fs).bind (writes_emitAll ih) out

end Outline

namespace Document
open Output
variable {read : Reader} {files : List SourceFile} {limit : Option Nat}

theorem writes_emitSection (text : Text) : Writes (emitSection text) (contentSection text) := by
  intro out
  unfold emitSection contentSection
  dsimp only
  refine (Writes.pieces _).congr ?_ out
  cases (Markup.CharacterData.escape text).isEmpty ||
    decide ((Markup.CharacterData.escape text).getLast? = some '\n') <;> simp

theorem writes_emitNote (fault : Option Disk.Fault) : Writes (emitNote fault) (note fault) := by
  cases fault with
  | none => exact Writes.nil
  | some fault =>
    intro out
    unfold emitNote note
    refine (Writes.pieces _).congr ?_ out
    simp

theorem writes_emitBlock (f : SourceFile) (timestamp : Text) (content : Content) :
    Writes (emitBlock f timestamp content) (block f timestamp content) := by
  intro out
  unfold emitBlock block Markup.Attribute.render
  refine ((Writes.pieces _).bind ((writes_emitSection content.text).bind
    ((writes_emitNote content.fault).bind (Writes.piece _)))).congr ?_ out
  simp

theorem writes_emitFooter (emitted : List Text) : Writes (emitFooter emitted) (footer emitted) := by
  intro out
  unfold emitFooter footer
  refine ((Writes.piece _).bind (((Outline.ofNames emitted).writes_emit 2).bind
    ((Writes.piece _).bind (Writes.piece _)))).congr ?_ out
  simp

def Progress.of (limit : Option Nat) (d : Draft) : Except Break Progress := do
  let out ← (blank limit).put d.text
  return ⟨out, d.report, d.events⟩

/-- Where a draft ends when a time without a date is met. -/
def Progress.undated {α : Type} (limit : Option Nat) (text : Text) : Except Break α := do
  let _ ← (blank limit).put text
  .error .undated

theorem undated_bind {α β : Type} {text : Text} (next : α → Except Break β) :
    (Progress.undated limit text >>= next) = Progress.undated limit text := bind_assoc _ _ _

/-- To write a file behind a draft is to write the draft with the file. -/
theorem add_of (limit : Option Nat) (d : Draft) (o : Outcome) :
    (Progress.of limit d >>= fun p => p.add o.1 o.2) =
      match d.add o.1 o.2 with
      | .ok next => Progress.of limit next
      | .error left => Progress.undated limit left.text := by
  obtain ⟨f, loaded⟩ := o
  rw [Progress.of, bind_assoc]
  cases loaded with
  | error fault => rfl
  | ok content =>
    cases hstamp : Calendar.timestamp? f.modified with
    | none => simp [Draft.add, Progress.add, Progress.undated, hstamp]
    | some timestamp =>
      have htext (blocks : List Text) : header ++ (blocks ++ [block f timestamp content]).flatten =
          header ++ blocks.flatten ++ block f timestamp content := by simp
      simp only [Draft.add, Progress.add, hstamp, Progress.of, Draft.text, htext, put_append, bind_assoc,
        pure_bind, writes_emitBlock f timestamp content _]

theorem foldlM_add_of (limit : Option Nat) (d : Draft) (outcomes : List Outcome) :
    (Progress.of limit d >>= fun p => outcomes.foldlM (fun p o => p.add o.1 o.2) p) =
      match outcomes.foldlM (fun d o => d.add o.1 o.2) d with
      | .ok last => Progress.of limit last
      | .error left => Progress.undated limit left.text := by
  induction outcomes generalizing d with
  | nil => exact bind_pure _
  | cons o outcomes ih =>
    simp only [List.foldlM_cons]
    rw [← bind_assoc, add_of]
    cases hadd : d.add o.1 o.2 with
    | ok next => exact ih next
    | error left => exact undated_bind _

def Progress.finish (p : Progress) : Except Break Document := do
  let out ← emitFooter p.report.emitted p.out
  return ⟨out.taken, p.report, p.events ++ closingEvents p.report⟩

theorem emit_eq (jobs : Nat) (limit : Option Nat) (read : Reader) (files : List SourceFile) :
    emit jobs limit read files = (Progress.of limit Draft.empty >>= fun p =>
      (outcomesOf read files).foldlM (fun p o => p.add o.1 o.2) p) >>= Progress.finish := by
  have hbatches (p : Progress) : (batches (batchSize jobs) files).foldlM (Progress.addBatch read) p =
      (outcomesOf read files).foldlM (fun p o => p.add o.1 o.2) p := by
    have hall := foldlM_readAhead (fun (p : Progress) (o : Outcome) => p.add o.1 o.2) read
      (batches (batchSize jobs) files) p
    rw [flatten_batches (batchSize_pos jobs)] at hall
    exact hall
  have hempty : Draft.empty.text = header := by simp [Draft.text, Draft.empty]
  unfold emit
  rw [Progress.of, hempty, bind_assoc, bind_assoc]
  simp only [hbatches]
  rfl

theorem of_finish (limit : Option Nat) (d : Draft) : (Progress.of limit d >>= Progress.finish) =
    if fits limit d.finish.text then .ok d.finish else .error (.full (cut limit d.finish.text)) := by
  have hput : (Progress.of limit d >>= Progress.finish) = (blank limit).put d.finish.text >>= fun out =>
      .ok ⟨out.taken, d.report, d.events ++ closingEvents d.report⟩ := by
    rw [Draft.finish, put_append, Progress.of, bind_assoc, bind_assoc]
    simp only [pure_bind, Progress.finish, writes_emitFooter d.report.emitted _]
    rfl
  rw [hput, put_blank]
  split <;> rfl

theorem undated_eq (limit : Option Nat) (text : Text) :
    (Progress.undated limit text : Except Break Document) =
      if fits limit text then .error .undated else .error (.full (cut limit text)) := by
  rw [Progress.undated, put_blank]
  split <;> rfl

/-- To write piece by piece is to write the whole document, or its first bytes where it is too long. -/
theorem emit_eq_write (jobs : Nat) (limit : Option Nat) (read : Reader) (files : List SourceFile) :
    emit jobs limit read files = write jobs limit read files := by
  rw [emit_eq, foldlM_add_of, write, compose_eq]
  cases (outcomesOf read files).foldlM (fun d o => d.add o.1 o.2) Draft.empty with
  | ok last => exact of_finish limit last
  | error left => exact (undated_bind _).trans (undated_eq limit left.text)

/-- An output with a limit takes the document that an output without a limit takes, if it fits. If it does
not, the document is cut: what is written is as many of its first bytes as the output takes. -/
theorem emit_cut (jobs : Nat) (read : Reader) (ht : ∀ f ∈ files, Calendar.isDated f.modified = true) :
    ∃ document, emit jobs none read files = .ok document ∧
      document.text = textOf (outcomesOf read files) ∧
      (∀ n, (Utf8.encode document.text).length ≤ n → emit jobs (some n) read files = .ok document) ∧
      (∀ n, n < (Utf8.encode document.text).length → ∃ written,
        emit jobs (some n) read files = .error (.full written) ∧
          written = (Utf8.encode document.text).take n ∧ written.length = n) ∧
      ∀ limit, write jobs limit read files = emit jobs limit read files := by
  obtain ⟨document, hd, htext, -⟩ := compose_dated jobs read ht
  refine ⟨document, ?_, htext, ?_, ?_, fun limit => (emit_eq_write jobs limit read files).symm⟩
  · simp [emit_eq_write, write, hd, fits]
  · intro n hn
    simp [emit_eq_write, write, hd, fits, hn]
  · intro n hn
    refine ⟨_, ?_, rfl, by simp [Nat.le_of_lt hn]⟩
    simp [emit_eq_write, write, hd, fits, cut, Nat.not_le.2 hn]

theorem emit_cut_inside :
    let f : SourceFile := ⟨.ofText "/a".toList, ['é'], "x".toList, ⟨0, 0⟩, 1⟩
    let read : Reader := fun _ => .ok ⟨['y'], some .isDirectory⟩
    (∀ g ∈ [f, f], Calendar.isDated g.modified = true) ∧
      ∃ document, emit 2 none read [f, f] = .ok document ∧
        21 < (Utf8.encode document.text).length ∧
        emit 2 (some 21) read [f, f] =
          .error (.full (Utf8.encode "<src>\n  <file name=\"".toList ++ [0xC3])) := by
  intro f read
  have ht : ∀ g ∈ [f, f], Calendar.isDated g.modified = true := by decide
  obtain ⟨document, hd, htext, -, hcut, -⟩ := emit_cut 2 read ht
  have hlength : 21 < (Utf8.encode document.text).length := by
    have hheader : (Utf8.encode header).length = 6 := rfl
    have hend : (Utf8.encode "  </filetree>\n</src>\n".toList).length = 21 := rfl
    rw [htext]
    unfold textOf footer
    simp only [Utf8.encode_append, List.length_append, hheader, hend]
    omega
  have hshape : textOf (outcomesOf read [f, f]) = header ++
      (block f (Calendar.timestamp f.modified) ⟨['y'], some .isDirectory⟩ ++
        (block f (Calendar.timestamp f.modified) ⟨['y'], some .isDirectory⟩ ++ footer [['é'], ['é']])) := by
    simp [textOf, outcomesOf, blockOf?, nameOf?, read, f]
  have htake (more : Text) : (Utf8.encode (header ++ ("  <file name=\"".toList ++
      (Markup.Attribute.escape ['é'] ++ more)))).take 21 =
        Utf8.encode "<src>\n  <file name=\"".toList ++ [0xC3] := rfl
  obtain ⟨written, hw, rfl, -⟩ := hcut 21 hlength
  refine ⟨ht, document, hd, hlength, ?_⟩
  rw [hw, htext, hshape, block_eq, htake]

end Document
end Folio
