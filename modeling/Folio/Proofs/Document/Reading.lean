import Folio.Document.Write
import Folio.Proofs.Markup.Reading
import Folio.Proofs.Text.Utf8

/-!
# Reading documents

A reader of the document layout takes the blocks one after another and says what each of them tells about
its file. On a composed document it gives back the files that opened, whatever stands in their names,
their contents and the faults that ended reading.
-/
namespace Folio

namespace Calendar
open Markup.Attribute

theorem isPlain_padded (width n : Nat) : IsPlain (padded width n) := by
  apply IsPlain.append
  · intro c hc
    rw [List.eq_of_mem_replicate hc]
    rfl
  · exact isPlain_ofNat n

theorem isPlain_yearText (year : Int) : IsPlain (yearText year) := by
  unfold yearText
  split
  · exact (isPlain_padded 4 _).cons rfl
  · split
    · exact (isPlain_padded 4 _).cons rfl
    · exact isPlain_padded 4 _

theorem isPlain_timestamp (t : Instant) : IsPlain (timestamp t) := by
  have hpart : ∀ c n, entity c = [c] → IsPlain (c :: padded 2 n) :=
    fun c n hc => (isPlain_padded 2 n).cons hc
  unfold timestamp
  apply IsPlain.append ?_ (hpart ':' _ rfl)
  apply IsPlain.append ?_ (hpart ':' _ rfl)
  apply IsPlain.append ?_ (hpart ' ' _ rfl)
  apply IsPlain.append ?_ (hpart '-' _ rfl)
  exact IsPlain.append (isPlain_yearText _) (hpart '-' _ rfl)

end Calendar

namespace Document
open Markup

structure Record where
  name : Text
  language : Text
  timestamp : Text
  size : Nat
  text : Text
  note : Option Text
  deriving DecidableEq

def note? (t : Text) : Option (Option Text × Text) :=
  match behind? "    <error>".toList t with
  | none => some (none, t)
  | some t => do
    let (message, t) ← Text.cutAt? '<' t
    let t ← behind? "/error>\n".toList t
    some (some (Attribute.unescape message), t)

def block? (t : Text) : Option (Record × Text) := do
  let t ← behind? "  <file name=\"".toList t
  let (name, t) ← Attribute.value? t
  let t ← behind? " language=\"".toList t
  let (language, t) ← Attribute.value? t
  let t ← behind? " modified=\"".toList t
  let (timestamp, t) ← Attribute.value? t
  let t ← behind? " size=\"".toList t
  let (size, t) ← Attribute.value? t
  let t ← behind? ">\n    <![CDATA[\n".toList t
  let (text, t) ← CharacterData.read? t
  let t ← behind? ['\n'] t
  let (note, t) ← note? t
  let t ← behind? "  </file>\n".toList t
  some (⟨name, language, timestamp, Nat.ofDigitChars 10 size 0, text, note⟩, t)

def records? (t : Text) : Option (List Record) :=
  if (behind? "  <filetree>\n".toList t).isSome then some []
  else
    match block? t with
    | none => none
    | some (record, rest) =>
      if _h : rest.length < t.length then (records? rest).map (record :: ·) else none
termination_by t.length

def read? (t : Text) : Option (List Record) := (behind? header t).bind records?

/-- Content with a newline at its end, unless it is empty. -/
def ended (text : Text) : Text :=
  if text = [] ∨ text.getLast? = some '\n' then text else text ++ ['\n']

def noteText (fault : Disk.Fault) : Text := "Error reading file: ".toList ++ fault.message

/-- What the block of a file has to tell. -/
def Record.of (f : SourceFile) (content : Content) : Record :=
  ⟨f.name, f.language, Calendar.timestamp f.modified, f.size, ended content.text,
    content.fault.map noteText⟩

variable {f : SourceFile} {content : Content} {rest : Text}

theorem contentSection_eq (text : Text) : contentSection text =
    "    ".toList ++ CharacterData.opening ++ '\n' :: CharacterData.escape (ended text) ++
      CharacterData.closing ++ ['\n'] := by
  unfold contentSection ended
  simp only [List.isEmpty_iff, Bool.or_eq_true, decide_eq_true_eq, CharacterData.getLast?_escape,
    CharacterData.escape_eq_nil_iff]
  split
  · simp
  · simp [CharacterData.escape_append_newline, CharacterData.escape]

theorem note?_note (fault : Option Disk.Fault) :
    note? (note fault ++ ("  </file>\n".toList ++ rest)) =
      some (fault.map noteText, "  </file>\n".toList ++ rest) := by
  cases fault with
  | none => rfl
  | some fault =>
    have hnote : note (some fault) ++ ("  </file>\n".toList ++ rest) =
        "    <error>".toList ++ (Attribute.escape (noteText fault) ++
          '<' :: ("/error>\n".toList ++ ("  </file>\n".toList ++ rest))) := by
      have hclose : "</error>\n".toList = '<' :: "/error>\n".toList := by simp
      unfold note noteText
      simp only [hclose, List.append_assoc, List.cons_append]
    rw [hnote, note?, behind?_append]
    simp only [Text.cutAt?_append (Attribute.angle_notMem_escape _), Option.bind_eq_bind, Option.bind_some,
      behind?_append, Attribute.unescape_escape]
    rfl

theorem block_eq : block f (Calendar.timestamp f.modified) content ++ rest =
    "  <file name=\"".toList ++ (Attribute.escape f.name ++ '"' ::
      (" language=\"".toList ++ (Attribute.escape f.language ++ '"' ::
        (" modified=\"".toList ++ (Attribute.escape (Calendar.timestamp f.modified) ++ '"' ::
          (" size=\"".toList ++ (Attribute.escape (Text.ofNat f.size) ++ '"' ::
            (">\n    <![CDATA[\n".toList ++ (CharacterData.escape (ended content.text) ++
              (CharacterData.closing ++ ('\n' :: (note content.fault ++
                ("  </file>\n".toList ++ rest))))))))))))) := by
  have hname : "  <file name=\"".toList = "  <file ".toList ++ "name".toList ++ ['=', '"'] := rfl
  have hlanguage : " language=\"".toList = ' ' :: "language".toList ++ ['=', '"'] := rfl
  have hsize : "\" size=\"".toList = '"' :: " size=\"".toList := by simp
  have hsection : ">\n    <![CDATA[\n".toList =
    ">\n".toList ++ "    ".toList ++ CharacterData.opening ++ ['\n'] := rfl
  have hend : "\">\n".toList = '"' :: ">\n".toList := by simp
  rw [(Calendar.isPlain_timestamp _).escape_eq, (Attribute.isPlain_ofNat _).escape_eq]
  unfold block Attribute.render
  simp only [contentSection_eq, hname, hlanguage, hsize, hsection, hend,
    List.append_assoc, List.cons_append, List.nil_append]

theorem block?_block : block? (block f (Calendar.timestamp f.modified) content ++ rest) =
    some (Record.of f content, rest) := by
  have hsection : ∀ t, CharacterData.read? (CharacterData.escape (ended content.text) ++
      (CharacterData.closing ++ ('\n' :: t))) = some (ended content.text, '\n' :: t) :=
    fun t => CharacterData.read?_escape _ rfl
  have hline : ∀ t, behind? ['\n'] ('\n' :: t) = some t := behind?_append ['\n']
  rw [block_eq]
  simp only [block?, Option.bind_eq_bind, behind?_append, Option.bind_some, Attribute.value?_escape,
    hsection, hline, note?_note, Record.of, Text.ofNat, Nat.ofDigitChars_ten_toDigits]

theorem records?_block :
    records? (block f (Calendar.timestamp f.modified) content ++ rest) =
      (records? rest).map (Record.of f content :: ·) := by
  have hstart : behind? "  <filetree>\n".toList
      (block f (Calendar.timestamp f.modified) content ++ rest) = none := by
    rw [block_eq]
    rfl
  have hlength : rest.length < (block f (Calendar.timestamp f.modified) content ++ rest).length := by
    have hfirst : "  <file name=\"".toList.length = 14 := rfl
    rw [block_eq]
    simp only [List.length_append, List.length_cons, hfirst]
    omega
  rw [records?, hstart]
  simp only [block?_block, hlength, dif_pos]
  rfl

theorem records?_footer (emitted : List Text) : records? (footer emitted) = some [] := by
  unfold footer
  rw [records?, List.append_assoc, behind?_append]
  rfl

abbrev Outcome := SourceFile × Except Disk.Fault Content

/-- What the document has to tell about a file; a file that did not open is passed over. -/
def recordOf? : Outcome → Option Record
  | (f, .ok content) => some (Record.of f content)
  | (_, .error _) => none

/-- The blocks of the draft are read as the given records, whatever follows them. -/
def Draft.Tells (d : Draft) (records : List Record) : Prop :=
  ∀ rest, records? (d.blocks.flatten ++ rest) = (records? rest).map (records ++ ·)

theorem Draft.Tells.add {d : Draft} {records : List Record} (h : d.Tells records) (o : Outcome)
    (ht : Calendar.isDated o.1.modified = true) :
    ∃ next, d.add o.1 o.2 = .ok next ∧ next.Tells (records ++ (recordOf? o).toList) := by
  obtain ⟨f, loaded⟩ := o
  cases loaded with
  | error fault =>
    refine ⟨_, rfl, fun rest => ?_⟩
    rw [recordOf?, Option.toList_none, List.append_nil]
    exact h rest
  | ok content =>
    have hstamp : Calendar.timestamp? f.modified = some (Calendar.timestamp f.modified) := if_pos ht
    simp only [Draft.add, hstamp]
    refine ⟨_, rfl, fun rest => ?_⟩
    simp only [List.flatten_append, List.flatten_singleton, List.append_assoc]
    rw [h, records?_block, Option.map_map]
    rfl

theorem Draft.Tells.foldlM_add {d : Draft} {records : List Record} (h : d.Tells records)
    (outcomes : List Outcome) (ht : ∀ o ∈ outcomes, Calendar.isDated o.1.modified = true) :
    ∃ last, outcomes.foldlM (fun d o => d.add o.1 o.2) d = .ok last ∧
      last.Tells (records ++ outcomes.filterMap recordOf?) := by
  induction outcomes generalizing d records with
  | nil => exact ⟨d, rfl, by simpa using h⟩
  | cons o outcomes ih =>
    obtain ⟨next, hnext, htells⟩ := h.add o (ht o (by simp))
    obtain ⟨last, hlast, hrecords⟩ := ih htells fun o ho => ht o (by simp [ho])
    refine ⟨last, ?_, ?_⟩
    · rw [List.foldlM_cons, hnext]
      exact hlast
    · cases ho : recordOf? o with
      | none => simpa [ho] using hrecords
      | some record => simpa [ho] using hrecords

theorem flatten_batches {α : Type} {size : Nat} (hs : 0 < size) (xs : List α) :
    (batches size xs).flatten = xs := by
  fun_induction batches size xs with
  | case1 xs h =>
    rcases h with rfl | rfl
    · rfl
    · exact absurd hs (Nat.lt_irrefl 0)
  | case2 xs h ih => rw [List.flatten_cons, ih, List.take_append_drop]

/-- To read ahead batch by batch is to read one file after another. -/
theorem foldlM_readAhead {σ ε : Type} (step : σ → Outcome → Except ε σ) (read : Reader)
    (bs : List (List SourceFile)) (s : σ) :
    bs.foldlM (fun s batch => (batch.zip (batch.map fun f => read f.path)).foldlM step s) s =
      (bs.flatten.map fun f => (f, read f.path)).foldlM step s := by
  induction bs generalizing s with
  | nil => rfl
  | cons batch bs ih =>
    have hzip : batch.zip (batch.map fun f => read f.path) =
        batch.map fun f => (f, read f.path) :=
      List.map_prod_left_eq_zip.symm
    rw [List.foldlM_cons, List.flatten_cons, List.map_append, List.foldlM_append, hzip]
    congr 1
    funext next
    exact ih next

theorem foldlM_addBatch (read : Reader) (bs : List (List SourceFile)) (d : Draft) :
    bs.foldlM (Draft.addBatch read) d =
      (bs.flatten.map fun f => (f, read f.path)).foldlM (fun d o => d.add o.1 o.2) d :=
  foldlM_readAhead (fun (d : Draft) (o : Outcome) => d.add o.1 o.2) read bs d

/-- Batches do not show in a document. -/
theorem write_eq {jobs : Nat} {read : Reader} {files : List SourceFile} {d : Draft}
    (h : (files.map fun f => (f, read f.path)).foldlM (fun d o => d.add o.1 o.2) Draft.empty =
      .ok d) :
    write jobs none read files = .ok d.finish := by
  have hsize : 0 < batchSize jobs := by
    unfold batchSize
    split <;> omega
  rw [write, compose, foldlM_addBatch, flatten_batches hsize, h]
  rfl

theorem read?_finish {d : Draft} {records : List Record} (h : d.Tells records) :
    read? d.finish.text = some records := by
  have htext : d.finish.text = header ++ (d.blocks.flatten ++ footer d.report.emitted) :=
    List.append_assoc _ _ _
  rw [htext, read?, behind?_append, Option.bind_some, h, records?_footer]
  simp

/-- Whatever opening and reading each file comes to, the document is finished, and reading it gives back
the files that opened, in order. It is the document that is written for a reader with these outcomes.
Files that are read to their end and hold text are told about with the text that their bytes encode. -/
theorem read?_write (jobs : Nat) (outcomes : List Outcome)
    (ht : ∀ o ∈ outcomes, Calendar.isDated o.1.modified = true) :
    ∃ document,
      (Draft.finish <$> outcomes.foldlM (fun d o => d.add o.1 o.2) Draft.empty) = .ok document ∧
      read? document.text = some (outcomes.filterMap recordOf?) ∧
      (∀ read : Reader, (∀ o ∈ outcomes, read o.1.path = o.2) →
        write jobs none read (outcomes.map (·.1)) = .ok document) ∧
      ∀ (disk : Disk) (path : Path) (text : Text),
        disk.read path = .ok (.ok (Utf8.encode text)) → disk.reader path = .ok ⟨text, none⟩ := by
  have hempty : Draft.empty.Tells [] := by
    intro rest
    simp [Draft.empty]
  obtain ⟨d, hd, htells⟩ := hempty.foldlM_add outcomes ht
  refine ⟨d.finish, by rw [hd]; rfl, read?_finish htells, ?_, ?_⟩
  · intro read hread
    apply write_eq
    have hpairs : (outcomes.map (·.1)).map (fun f => (f, read f.path)) = outcomes := by
      have hsame : ∀ o ∈ outcomes, (o.1, read o.1.path) = o :=
        fun o ho => Prod.ext rfl (hread o ho)
      rw [List.map_map]
      exact (List.map_congr_left hsame).trans (List.map_id' outcomes)
    rw [hpairs]
    exact hd
  · intro disk path text hread
    simp only [Disk.reader, hread, bind, Except.bind, Utf8.decodeLossy_encode]

theorem read?_write_marked :
    let file : SourceFile := ⟨.ofText "/a\"b".toList, "a\"b".toList, "x&y".toList, ⟨0, 0⟩, 3⟩
    let outcomes : List Outcome := [(file, .ok ⟨"]]>".toList, some .isDirectory⟩),
      (file, .error .missing), (file, .ok ⟨[], none⟩)]
    (∀ o ∈ outcomes, Calendar.isDated o.1.modified = true) ∧
      ∃ document,
        (Draft.finish <$> outcomes.foldlM (fun d o => d.add o.1 o.2) Draft.empty) = .ok document ∧
        read? document.text = some
          [⟨"a\"b".toList, "x&y".toList, "1970-01-01 00:00:00".toList, 3, "]]>\n".toList,
              some "Error reading file: Is a directory (os error 21)".toList⟩,
            ⟨"a\"b".toList, "x&y".toList, "1970-01-01 00:00:00".toList, 3, [], none⟩] := by
  intro file outcomes
  have ht : ∀ o ∈ outcomes, Calendar.isDated o.1.modified = true := by decide
  obtain ⟨document, hd, hr, -⟩ := read?_write 4 outcomes ht
  have hrecords : outcomes.filterMap recordOf? =
      [⟨"a\"b".toList, "x&y".toList, "1970-01-01 00:00:00".toList, 3, "]]>\n".toList,
          some "Error reading file: Is a directory (os error 21)".toList⟩,
        ⟨"a\"b".toList, "x&y".toList, "1970-01-01 00:00:00".toList, 3, [], none⟩] := by decide
  rw [hrecords] at hr
  exact ⟨ht, document, hd, hr⟩

end Document
end Folio
