import Folio.Proofs.Document.Reading

/-!
# Documents written in batches

A document holds the blocks of the files that opened, each with its own content, and its report counts
every file once. Into which batches the files are cut does not show in either.
-/
namespace Folio.Document
variable {read : Reader} {files : List SourceFile} {outcomes : List Outcome} {d : Draft}

def outcomesOf (read : Reader) (files : List SourceFile) : List Outcome :=
  files.map fun f => (f, read f.path)

def blockOf? : Outcome → Option Text
  | (f, .ok content) => some (block f (Calendar.timestamp f.modified) content)
  | (_, .error _) => none

def nameOf? : Outcome → Option Text
  | (f, .ok _) => some f.name
  | (_, .error _) => none

def isSkipped : Outcome → Bool
  | (_, .ok _) => false
  | (_, .error _) => true

def isCutShort : Outcome → Bool
  | (_, .ok content) => content.fault.isSome
  | (_, .error _) => false

/-- The document of some files without the batches: block after block, and the outline of their names. -/
def textOf (outcomes : List Outcome) : Text :=
  header ++ (outcomes.filterMap blockOf?).flatten ++ footer (outcomes.filterMap nameOf?)

def reportOf (outcomes : List Outcome) : Report :=
  ⟨outcomes.filterMap nameOf?, outcomes.countP isSkipped, outcomes.countP isCutShort⟩

theorem length_emitted_add_skipped (outcomes : List Outcome) :
    (reportOf outcomes).emitted.length + (reportOf outcomes).skipped = outcomes.length := by
  simp only [reportOf]
  induction outcomes with
  | nil => rfl
  | cons o outcomes ih =>
    obtain ⟨f, loaded⟩ := o
    cases loaded with
    | error fault =>
      rw [List.filterMap_cons_none rfl, List.countP_cons_of_pos rfl, List.length_cons]
      omega
    | ok content =>
      have hname : nameOf? (f, .ok content) = some f.name := rfl
      rw [List.filterMap_cons_some hname, List.countP_cons_of_neg (by simp [isSkipped]),
        List.length_cons, List.length_cons]
      omega

/-- The file has a date, if it opens. -/
def IsWritable (o : Outcome) : Prop := isSkipped o = false → Calendar.isDated o.1.modified = true

structure Draft.Covers (d : Draft) (outcomes : List Outcome) : Prop where
  blocks : d.blocks = outcomes.filterMap blockOf?
  report : d.report = reportOf outcomes

theorem Draft.Covers.add (h : d.Covers outcomes) (o : Outcome) (ht : IsWritable o) :
    ∃ next, d.add o.1 o.2 = .ok next ∧ next.Covers (outcomes ++ [o]) := by
  obtain ⟨f, loaded⟩ := o
  cases loaded with
  | error fault =>
    refine ⟨_, rfl, ?_, ?_⟩
    · simp [h.blocks, blockOf?]
    · simp [h.report, reportOf, nameOf?, isSkipped, isCutShort]
  | ok content =>
    have hstamp : Calendar.timestamp? f.modified = some (Calendar.timestamp f.modified) := if_pos (ht rfl)
    simp only [Draft.add, hstamp]
    refine ⟨_, rfl, ?_, ?_⟩
    · simp [h.blocks, blockOf?]
    · simp only [h.report, reportOf, List.filterMap_append, List.countP_append, List.countP_singleton]
      rfl

theorem Draft.Covers.foldlM_add (h : d.Covers outcomes) (more : List Outcome) (ht : ∀ o ∈ more, IsWritable o) :
    ∃ last, more.foldlM (fun d o => d.add o.1 o.2) d = .ok last ∧ last.Covers (outcomes ++ more) := by
  induction more generalizing d outcomes with
  | nil => exact ⟨d, rfl, by simpa using h⟩
  | cons o more ih =>
    obtain ⟨next, hnext, hcovers⟩ := h.add o (ht o (by simp))
    obtain ⟨last, hlast, hall⟩ := ih hcovers fun o ho => ht o (by simp [ho])
    refine ⟨last, ?_, by simpa using hall⟩
    rw [List.foldlM_cons, hnext]
    exact hlast

theorem Draft.Covers.text_finish (h : d.Covers outcomes) : d.finish.text = textOf outcomes := by
  have hemitted : d.report.emitted = outcomes.filterMap nameOf? := by
    rw [h.report]
    rfl
  rw [Draft.finish, Draft.text, textOf, h.blocks, hemitted]

theorem batchSize_pos (jobs : Nat) : 0 < batchSize jobs := by
  unfold batchSize
  split <;> omega

/-- The batches with what was read ahead for each of them are the files, each with its own outcome. -/
theorem flatMap_batches (jobs : Nat) (read : Reader) (files : List SourceFile) :
    ((batches (batchSize jobs) files).flatMap fun batch => batch.zip (batch.map fun f => read f.path)) =
      outcomesOf read files := by
  have hzip : ∀ batch : List SourceFile,
      batch.zip (batch.map fun f => read f.path) = outcomesOf read batch :=
    fun batch => List.map_prod_left_eq_zip.symm
  calc (batches (batchSize jobs) files).flatMap (fun batch => batch.zip (batch.map fun f => read f.path))
      = (batches (batchSize jobs) files).flatMap (outcomesOf read) := by simp only [hzip]
    _ = outcomesOf read (batches (batchSize jobs) files).flatten := List.map_flatten.symm
    _ = outcomesOf read files := by rw [flatten_batches (batchSize_pos jobs)]

theorem compose_eq (jobs : Nat) (read : Reader) (files : List SourceFile) :
    compose jobs read files =
      match (outcomesOf read files).foldlM (fun d o => d.add o.1 o.2) Draft.empty with
      | .ok d => .ok d.finish
      | .error d => .error d.text := by
  rw [compose, foldlM_addBatch, flatten_batches (batchSize_pos jobs)]
  rfl

theorem Draft.exists_emitted_add {f : SourceFile} {loaded : Except Disk.Fault Content} {next : Draft}
    (h : d.add f loaded = .ok next) :
    ∃ names, next.report.emitted = d.report.emitted ++ names ∧ names.Sublist [f.name] := by
  unfold add at h
  split at h
  · cases h
    exact ⟨[], (List.append_nil _).symm, List.nil_sublist _⟩
  · split at h
    · cases h
    · cases h
      exact ⟨[f.name], rfl, List.Sublist.refl _⟩

theorem Draft.exists_emitted_foldlM_add {last : Draft}
    (h : outcomes.foldlM (fun d o => d.add o.1 o.2) d = .ok last) :
    ∃ names, last.report.emitted = d.report.emitted ++ names ∧ names.Sublist (outcomes.map (·.1.name)) := by
  induction outcomes generalizing d with
  | nil =>
    cases h
    exact ⟨[], (List.append_nil _).symm, List.nil_sublist _⟩
  | cons o outcomes ih =>
    rw [List.foldlM_cons] at h
    cases hadd : d.add o.1 o.2 with
    | error left =>
      rw [hadd] at h
      cases h
    | ok next =>
      rw [hadd] at h
      obtain ⟨first, hfirst, hone⟩ := exists_emitted_add hadd
      obtain ⟨rest, hrest, hothers⟩ := ih h
      refine ⟨first ++ rest, by rw [hrest, hfirst, List.append_assoc], ?_⟩
      exact hone.append hothers

/-- A document names files that it was given, each once and in their order. -/
theorem emitted_sublist_of_compose {jobs : Nat} {document : Document}
    (h : compose jobs read files = .ok document) :
    document.report.emitted.Sublist (files.map (·.name)) := by
  rw [compose_eq] at h
  split at h
  next last hlast =>
    cases h
    obtain ⟨names, hnames, hsub⟩ := Draft.exists_emitted_foldlM_add hlast
    have hmap : (outcomesOf read files).map (·.1.name) = files.map (·.name) := List.map_map
    rw [hmap] at hsub
    rw [Draft.finish, hnames]
    exact hsub
  next => cases h

/-- Files that have a date if they open make a document, with the blocks of those that do. -/
theorem compose_writable (jobs : Nat) (ht : ∀ o ∈ outcomesOf read files, IsWritable o) :
    ∃ document, compose jobs read files = .ok document ∧
      document.text = textOf (outcomesOf read files) ∧
      document.report = reportOf (outcomesOf read files) := by
  have hempty : Draft.empty.Covers [] := ⟨rfl, rfl⟩
  obtain ⟨d, hd, hcovers⟩ := hempty.foldlM_add _ ht
  rw [List.nil_append] at hcovers
  exact ⟨d.finish, by rw [compose_eq, hd], hcovers.text_finish, hcovers.report⟩

theorem compose_dated (jobs : Nat) (read : Reader)
    (ht : ∀ f ∈ files, Calendar.isDated f.modified = true) :
    ∃ document, compose jobs read files = .ok document ∧
      document.text = textOf (outcomesOf read files) ∧
      document.report = reportOf (outcomesOf read files) := by
  apply compose_writable
  intro o ho _
  obtain ⟨f, hf, rfl⟩ := List.mem_map.1 ho
  exact ht f hf

/-- Reading ahead does not show. Whatever opening and reading each file comes to, the same is written for
every number of jobs and every limit of the output: the blocks of the files that open, in order and each
with the content of its own file, and a report that counts every file once. -/
theorem write_readAhead (read : Reader) (ht : ∀ f ∈ files, Calendar.isDated f.modified = true)
    (jobs jobs' : Nat) :
    (∀ limit, write jobs limit read files = write jobs' limit read files) ∧
      ((batches (batchSize jobs) files).flatMap fun batch =>
        batch.zip (batch.map fun f => read f.path)) = outcomesOf read files ∧
      ∃ document, write jobs none read files = .ok document ∧
        document.text = textOf (outcomesOf read files) ∧
        document.report = reportOf (outcomesOf read files) ∧
        document.report.emitted.length + document.report.skipped = files.length := by
  refine ⟨fun limit => ?_, flatMap_batches jobs read files, ?_⟩
  · simp only [write, compose_eq]
  · obtain ⟨document, hd, htext, hreport⟩ := compose_dated jobs read ht
    refine ⟨document, by simp [write, hd, fits], htext, hreport, ?_⟩
    rw [hreport, length_emitted_add_skipped, outcomesOf, List.length_map]

theorem write_readAhead_marked :
    let a : SourceFile := ⟨.ofText "/a".toList, "a".toList, "x".toList, ⟨0, 0⟩, 1⟩
    let b : SourceFile := ⟨.ofText "/b".toList, "b".toList, "x".toList, ⟨-1, 5⟩, 2⟩
    let read : Reader := fun path =>
      if path = a.path then .ok ⟨"]]>".toList, some .isDirectory⟩ else .error .missing
    (∀ f ∈ [a, b, a], Calendar.isDated f.modified = true) ∧
      (∀ limit, write 1 limit read [a, b, a] = write 3 limit read [a, b, a]) ∧
      ∃ document, write 1 none read [a, b, a] = .ok document ∧
        document.text = textOf (outcomesOf read [a, b, a]) ∧
        document.report = ⟨["a".toList, "a".toList], 1, 2⟩ ∧
        document.report.emitted.length + document.report.skipped = 3 := by
  intro a b read
  have ht : ∀ f ∈ [a, b, a], Calendar.isDated f.modified = true := by decide
  obtain ⟨hlimits, -, document, hd, htext, hreport, hcount⟩ := write_readAhead read ht 1 3
  exact ⟨ht, hlimits, document, hd, htext, hreport.trans (by decide), hcount⟩

end Folio.Document
