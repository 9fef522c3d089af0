import Folio.Proofs.Collection.Targets

/-!
# Collections of joined target lists

All targets share one collection. What was ignored and counted is added up in the order of the targets, and the
kept files are those of all targets. Only where two of them are shown alike, the later target has the last word.
-/
namespace Folio

def Find.isFile : Find → Bool
  | .file _ => true
  | .report _ => false

namespace Collector
open Disk
variable {c : Collector} {disk : Disk} {s : Collection} {ts us : List Text}

/-- The name of what turned up with the rule that leaves it out, if it is left out. -/
def ignored? (c : Collector) : Find → Option (Text × Text)
  | .report _ => none
  | .file path =>
    match c.rules.verdict (c.nameOf path) false with
    | .excluded rule => some (c.nameOf path, rule)
    | _ => none

theorem take_eq (s : Collection) (f : Find) :
    (c.take s f).ignored = s.ignored ++ (c.ignored? f).toList ∧
      (c.take s f).discovered = s.discovered + if f.isFile then 1 else 0 := by
  cases f with
  | report event => simp [take, ignored?, Find.isFile]
  | file path =>
    rw [take, ignored?]
    cases c.rules.verdict (c.nameOf path) false <;> simp [Find.isFile]

theorem foldl_take_eq (fs : List Find) (s : Collection) :
    (fs.foldl c.take s).ignored = s.ignored ++ fs.filterMap c.ignored? ∧
      (fs.foldl c.take s).discovered = s.discovered + fs.countP Find.isFile := by
  induction fs generalizing s with
  | nil => simp
  | cons f fs ih =>
    obtain ⟨hignored, hdiscovered⟩ := ih (c.take s f)
    obtain ⟨hfirst, hcount⟩ := take_eq (c := c) s f
    rw [List.foldl_cons, hignored, hdiscovered, hfirst, hcount, List.countP_cons]
    refine ⟨?_, by omega⟩
    cases h : c.ignored? f <;> simp [h]

/-- What a collection ignored and how much it judged is told file by file. -/
theorem collect_eq (targets : List Text) :
    (c.collect disk targets).ignored = (c.finds disk targets).filterMap c.ignored? ∧
      (c.collect disk targets).discovered = (c.finds disk targets).countP Find.isFile := by
  obtain ⟨hignored, hdiscovered⟩ := foldl_take_eq (c := c) (c.finds disk targets) .empty
  exact ⟨hignored.trans (List.nil_append _), hdiscovered.trans (Nat.zero_add _)⟩

theorem finds_append (hts : ts ≠ []) (hus : us ≠ []) :
    c.finds disk (ts ++ us) = c.finds disk ts ++ c.finds disk us := by
  simp [finds, hts, hus]

theorem mem_finds_congr (h : ∀ t, t ∈ us ↔ t ∈ ts) (f : Find) :
    f ∈ c.finds disk us ↔ f ∈ c.finds disk ts := by
  have hnil : us = [] ↔ ts = [] := by simp only [List.eq_nil_iff_forall_not_mem, h]
  simp only [finds, List.isEmpty_iff, hnil]
  split
  · exact Iff.rfl
  · simp only [List.mem_flatMap, h]

theorem mem_files_append_iff (hts : ts ≠ []) (hus : us ≠ []) {f : Candidate} :
    f ∈ (c.collect disk (ts ++ us)).files ↔ f ∈ (c.collect disk us).files ∨
      f ∈ (c.collect disk ts).files ∧ ∀ g ∈ (c.collect disk us).files, g.path.shown ≠ f.path.shown := by
  simp only [mem_files_iff, finds_append hts hus, letThrough, List.filterMap_append,
    Candidate.isLast_append_iff]
  refine or_congr_right (and_congr_right fun _ => ⟨fun h g hg => h g hg.mem, fun h g hg hshown => ?_⟩)
  obtain ⟨last, hlast, hlike⟩ := Candidate.exists_isLast hg
  exact h last hlast (hlike.trans hshown)

/-- Two target lists together ignore and count what the one and then the other does. They keep, in strictly
ascending order of the absolute paths, what the second list keeps and what the first list keeps that is not
shown like any of it. This is what either list keeps exactly if no file of the one is shown like another file of
the other. Where no two files are shown alike it does not matter in which order targets are given, or how
often. -/
theorem collect_append (hts : ts ≠ []) (hus : us ≠ []) :
    let collection targets := c.collect disk targets
    (∀ f, f ∈ (collection (ts ++ us)).files ↔ f ∈ (collection us).files ∨
        f ∈ (collection ts).files ∧ ∀ g ∈ (collection us).files, g.path.shown ≠ f.path.shown) ∧
      ((∀ f, f ∈ (collection (ts ++ us)).files ↔ f ∈ (collection ts).files ∨ f ∈ (collection us).files) ↔
        ∀ f ∈ (collection ts).files, ∀ g ∈ (collection us).files, f.path.shown = g.path.shown → f = g) ∧
      (collection (ts ++ us)).files.Pairwise (fun a b => a.path.shown < b.path.shown) ∧
      (collection (ts ++ us)).ignored = (collection ts).ignored ++ (collection us).ignored ∧
      (collection (ts ++ us)).discovered = (collection ts).discovered + (collection us).discovered ∧
      ∀ vs, (∀ t, t ∈ vs ↔ t ∈ ts) → Candidate.TellsApart (c.letThrough (c.finds disk ts)) →
        (collection vs).files = (collection ts).files := by
  intro collection
  have hmem : ∀ f, f ∈ (collection (ts ++ us)).files ↔ f ∈ (collection us).files ∨
      f ∈ (collection ts).files ∧ ∀ g ∈ (collection us).files, g.path.shown ≠ f.path.shown :=
    fun _ => mem_files_append_iff hts hus
  refine ⟨hmem, ⟨fun h f hf g hg hshown => ?_, fun h f => ?_⟩, pairwise_files, ?_, ?_, fun vs hvs hts => ?_⟩
  · rcases (hmem f).1 ((h f).2 (.inl hf)) with hfu | ⟨-, hlast⟩
    · exact (mem_files_iff.1 hfu).eq (mem_files_iff.1 hg) hshown
    · exact absurd hshown.symm (hlast g hg)
  · rw [hmem]
    constructor
    · exact fun hf => hf.symm.imp_left And.left
    · rintro (hf | hf)
      · by_cases hlike : ∃ g ∈ (collection us).files, g.path.shown = f.path.shown
        · obtain ⟨g, hg, hshown⟩ := hlike
          exact .inl (h f hf g hg hshown.symm ▸ hg)
        · exact .inr ⟨hf, fun g hg hshown => hlike ⟨g, hg, hshown⟩⟩
      · exact .inl hf
  · rw [(collect_eq _).1, (collect_eq _).1, (collect_eq _).1, finds_append hts hus, List.filterMap_append]
  · rw [(collect_eq _).2, (collect_eq _).2, (collect_eq _).2, finds_append hts hus, List.countP_append]
  · have hsame : ∀ f, f ∈ c.letThrough (c.finds disk vs) ↔ f ∈ c.letThrough (c.finds disk ts) := by
      intro f
      rw [mem_letThrough_iff, mem_letThrough_iff, mem_finds_congr hvs]
    have hvs : Candidate.TellsApart (c.letThrough (c.finds disk vs)) :=
      fun f hf g hg => hts f ((hsame f).1 hf) g ((hsame g).1 hg)
    apply Candidate.eq_of_mem_iff pairwise_files pairwise_files
    intro f
    rw [files_collect, files_collect, hvs.mem_settle_iff, hts.mem_settle_iff, hsame]

/-- A collector for the directory `w`, with a rule that excludes a file in it. -/
def linkedCollector : Collector :=
  ⟨pathOf [Utf8.ofString "w"], pathOf [Utf8.ofString "w"], Ruleset.ofTexts ["**/b".toList], false⟩

/-- A directory, a target that cannot be read, and a file in the directory, some of them twice. -/
theorem collect_append_linkedTree :
    let ts := [['a'], "***".toList]
    let us := ["a/b".toList, ['a']]
    ts ≠ [] ∧ us ≠ [] ∧
      (linkedCollector.collect linkedTree (ts ++ us)).ignored =
        (linkedCollector.collect linkedTree ts).ignored ++ (linkedCollector.collect linkedTree us).ignored ∧
      (linkedCollector.collect linkedTree (ts ++ us)).discovered =
        (linkedCollector.collect linkedTree ts).discovered +
          (linkedCollector.collect linkedTree us).discovered := by
  intro ts us
  have hts : ts ≠ [] := List.cons_ne_nil _ _
  have hus : us ≠ [] := List.cons_ne_nil _ _
  obtain ⟨-, -, -, hignored, hdiscovered, -⟩ := @collect_append linkedCollector linkedTree ts us hts hus
  exact ⟨hts, hus, hignored, hdiscovered⟩

theorem finds_alikeNames_directory :
    alikeCollector.finds alikeNames [['.']] = alikeCollector.finds alikeNames [] := by
  have hresolve : alikeCollector.resolve ['.'] = pathOf [Utf8.ofString "w"] := by decide
  have hd : alikeNames.isDirectory (pathOf [Utf8.ofString "w"]) = true := isDirectory_pathOf rfl
  rw [finds, if_neg (by simp), List.flatMap_singleton, lookUp, hresolve, hd,
    isFile_eq_false_of_isDirectory hd]
  rfl

/-- Together a file and its directory keep one file, while each of them alone keeps a file of its own; in the
other order they keep the other file. -/
theorem collect_append_ne_alikeNames :
    let files targets := (alikeCollector.collect alikeNames targets).files
    let first : Candidate := ⟨pathOf [Utf8.ofString "w", Utf8.encode [Utf8.replacement]], [Utf8.replacement]⟩
    let second : Candidate := ⟨pathOf [Utf8.ofString "w", [0xFF]], [Utf8.replacement]⟩
    files [[Utf8.replacement]] = [first] ∧ files [['.']] = [second] ∧
      files ([[Utf8.replacement]] ++ [['.']]) = [second] ∧ files ([['.']] ++ [[Utf8.replacement]]) = [first] := by
  intro files first second
  have hfile : [[Utf8.replacement]] ≠ [] := List.cons_ne_nil _ _
  have hdirectory : [['.']] ≠ [] := List.cons_ne_nil _ _
  simp only [files, files_collect, finds_append hfile hdirectory, finds_append hdirectory hfile,
    finds_alikeNames_directory, finds_alikeNames_target, finds_alikeNames]
  decide +kernel

end Collector
end Folio
