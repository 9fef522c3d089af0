import Folio.Proofs.Calendar.Timestamp
import Folio.Proofs.Document.Batches

/-!
# Documents that end early

On an output without limits a document is finished unless a file that opens has no date. What is in the files
and what becomes of reading them ends no document, and a file that does not open needs no date.
-/
namespace Folio.Document
variable {read : Reader} {files : List SourceFile} {outcomes : List Outcome} {d : Draft} {o : Outcome}

theorem Draft.add_eq_error (h : ¬ IsWritable o) : d.add o.1 o.2 = .error d := by
  obtain ⟨f, loaded⟩ := o
  rw [IsWritable, Classical.not_imp] at h
  cases loaded with
  | error fault => cases h.1
  | ok content =>
    have hstamp : Calendar.timestamp? f.modified = none := if_neg h.2
    simp only [Draft.add, hstamp]

theorem Draft.exists_foldlM_add_eq_error (h : ∃ o ∈ outcomes, ¬ IsWritable o) :
    ∃ left, outcomes.foldlM (fun d o => d.add o.1 o.2) d = .error left := by
  induction outcomes generalizing d with
  | nil =>
    obtain ⟨o, ho, -⟩ := h
    cases ho
  | cons o outcomes ih =>
    rw [List.foldlM_cons]
    cases hadd : d.add o.1 o.2 with
    | error left => exact ⟨left, rfl⟩
    | ok next =>
      have hrest : ∃ o ∈ outcomes, ¬ IsWritable o := by
        obtain ⟨p, hp, hnot⟩ := h
        rcases List.mem_cons.1 hp with rfl | hp
        · rw [add_eq_error hnot] at hadd
          cases hadd
        · exact ⟨p, hp, hnot⟩
      exact ih hrest

theorem write_of_writable (jobs : Nat) (ht : ∀ o ∈ outcomesOf read files, IsWritable o) :
    ∃ document, write jobs none read files = .ok document ∧
      document.report = reportOf (outcomesOf read files) := by
  obtain ⟨document, hd, -, hreport⟩ := compose_writable jobs ht
  exact ⟨document, by simp [write, hd, fits], hreport⟩

theorem write_of_not_writable (jobs : Nat) (h : ∃ o ∈ outcomesOf read files, ¬ IsWritable o) :
    write jobs none read files = .error .undated := by
  obtain ⟨left, hleft⟩ := Draft.exists_foldlM_add_eq_error h
  rw [write, compose_eq, hleft]
  rfl

theorem write_cases (jobs : Nat) (read : Reader) (files : List SourceFile) :
    ((∀ o ∈ outcomesOf read files, IsWritable o) ∧
      ∃ document, write jobs none read files = .ok document ∧
        document.report = reportOf (outcomesOf read files)) ∨
    (¬ ∀ o ∈ outcomesOf read files, IsWritable o) ∧ write jobs none read files = .error .undated := by
  by_cases hall : ∀ o ∈ outcomesOf read files, IsWritable o
  · exact .inl ⟨hall, write_of_writable jobs hall⟩
  · exact .inr ⟨hall, write_of_not_writable jobs (by simpa using hall)⟩

theorem forall_isWritable_iff : (∀ o ∈ outcomesOf read files, IsWritable o) ↔
    ∀ f ∈ files, isSkipped (f, read f.path) = false →
      -8334601228800 ≤ Calendar.wholeSeconds f.modified ∧
        Calendar.wholeSeconds f.modified ≤ 8210266876799 := by
  simp only [outcomesOf, List.mem_map, forall_exists_index, and_imp, forall_apply_eq_imp_iff₂, IsWritable,
    Calendar.isDated_iff]

/-- The report on all files tells the files that open from the others. -/
theorem reportOf_outcomesOf (read : Reader) (files : List SourceFile) : reportOf (outcomesOf read files) =
    { emitted := (files.filter fun f => !isSkipped (f, read f.path)).map (·.name)
      skipped := (files.filter fun f => isSkipped (f, read f.path)).length
      readErrors := (files.filter fun f => isCutShort (f, read f.path)).length } := by
  have hnames : (outcomesOf read files).filterMap nameOf? =
      (files.filter fun f => !isSkipped (f, read f.path)).map (·.name) := by
    rw [outcomesOf, List.filterMap_map, ← List.filterMap_eq_map, ← List.filterMap_eq_filter,
      List.filterMap_filterMap]
    congr 1
    funext f
    cases hf : read f.path <;> simp [nameOf?, isSkipped, Option.guard, hf]
  have hcount : ∀ p : Outcome → Bool, (outcomesOf read files).countP p =
      (files.filter fun f => p (f, read f.path)).length := by
    intro p
    rw [outcomesOf, List.countP_map, List.countP_eq_length_filter]
    rfl
  rw [reportOf, hnames, hcount, hcount]

/-- On an output that takes everything the document of any files is finished exactly when the files that
open were changed in a year from -262143 to 262142, whatever their names, languages, sizes and contents. Its
report then names the files that open, in order, counts the others as skipped and those of the named files that
were cut short as read errors. -/
theorem write_complete (jobs : Nat) (read : Reader) (files : List SourceFile) :
    ((∃ document, write jobs none read files = .ok document) ↔
      ∀ f ∈ files, isSkipped (f, read f.path) = false →
        -8334601228800 ≤ Calendar.wholeSeconds f.modified ∧
          Calendar.wholeSeconds f.modified ≤ 8210266876799) ∧
    (∀ fault, write jobs none read files = .error fault → fault = .undated) ∧
    ∀ document, write jobs none read files = .ok document →
      document.report.emitted = (files.filter fun f => !isSkipped (f, read f.path)).map (·.name) ∧
        document.report.skipped = (files.filter fun f => isSkipped (f, read f.path)).length ∧
        document.report.emitted.length + document.report.skipped = files.length ∧
        document.report.readErrors = (files.filter fun f => isCutShort (f, read f.path)).length := by
  have hlength : (outcomesOf read files).length = files.length := List.length_map _
  have hcount := length_emitted_add_skipped (outcomesOf read files)
  have hreport := reportOf_outcomesOf read files
  rw [← forall_isWritable_iff]
  obtain ⟨hall, document, hd, hsame⟩ | ⟨hnot, hundated⟩ := write_cases jobs read files
  · rw [hd]
    refine ⟨⟨fun _ => hall, fun _ => ⟨document, rfl⟩⟩, nofun, ?_⟩
    rintro _ ⟨⟩
    rw [hsame]
    refine ⟨?_, ?_, hcount.trans hlength, ?_⟩ <;> rw [hreport]
  · rw [hundated]
    refine ⟨⟨nofun, fun hall => absurd hall hnot⟩, ?_, nofun⟩
    rintro _ ⟨⟩
    rfl

/-- An empty file with the latest time that 64 bits hold ends the document. -/
theorem write_latest :
    let f : SourceFile := ⟨.ofText "/a".toList, "a".toList, "x".toList, ⟨9223372036854775807, 0⟩, 0⟩
    let read : Reader := fun _ => .ok ⟨[], none⟩
    write 1 none read [f] = .error .undated ∧ ¬ ∃ document, write 1 none read [f] = .ok document := by
  intro f read
  have hundated : Calendar.isDated f.modified = false := by decide +kernel
  have hend : write 1 none read [f] = .error .undated := by
    refine write_of_not_writable 1 ⟨(f, read f.path), by simp [outcomesOf], fun h => ?_⟩
    rw [h rfl] at hundated
    cases hundated
  refine ⟨hend, ?_⟩
  rintro ⟨document, hd⟩
  rw [hend] at hd
  cases hd

end Folio.Document
