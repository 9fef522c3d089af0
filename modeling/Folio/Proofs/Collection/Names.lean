import Folio.Proofs.Collection.RealFiles
import Folio.Proofs.Collection.WholeTree
import Folio.Proofs.Document.Batches
import Folio.Proofs.Path.Named
import Folio.Proofs.Target.Reached
import Folio.Selection

/-!
# Names of collected files

The files of one collection have plain paths, or they lie below one root that is spelled in one way. So no
two of them have the same components. A name leads back to the components unless it shows something that is no
text: then it may be the name of several files, of which a collection keeps one.
-/
namespace Folio

namespace Selection
variable {disk : Disk} {candidates : List Candidate}

theorem names_judge_sublist (disk : Disk) (c : Candidate) (language : Option Text) :
    ((judge disk c language).1.toList.map (·.name)).Sublist [c.name] := by
  cases language with
  | none => exact List.nil_sublist _
  | some language =>
    unfold judge
    cases disk.measure c.path with
    | error fault => exact List.nil_sublist _
    | ok measured => exact List.Sublist.refl _

theorem names_of_sublist (recognize : Recognizer) (disk : Disk) (candidates : List Candidate) :
    ((Selection.of recognize disk candidates).files.map (·.name)).Sublist (candidates.map (·.name)) := by
  induction candidates generalizing disk with
  | nil => exact List.Sublist.refl _
  | cons c rest ih =>
    rw [Selection.of, List.map_append]
    exact (names_judge_sublist _ c _).append (ih _)

end Selection

namespace Target
open Folio.Path

theorem head?_patternOf {workingDirectory : Path} (hw : workingDirectory.isAbsolute = true) (target : Text) :
    (patternOf workingDirectory target).head? = some '/' := by
  rw [patternOf]
  split
  next ht => exact ht
  next =>
    obtain ⟨bytes, rfl⟩ := exists_eq_slash hw
    have hshown : (Path.mk (slash :: bytes)).shown = '/' :: Utf8.decodeLossy bytes :=
      Utf8.decodeLossy_append (b := slash) (by decide) [] bytes
    rw [hshown]
    rfl

end Target

namespace Collector
open Disk Folio.Path
variable {c : Collector} {disk : Disk} {targets : List Text} {target : Text} {start p q : Path}

theorem exists_names_of_mem_walked (h : .file p ∈ c.walked disk start) :
    ∃ names, (∀ n ∈ names, IsFileName n) ∧ p = start.below names := by
  have hpast : .file p ∈ c.walkedPast c.passesOver disk start := h
  obtain ⟨kind, hm, -⟩ := mem_walkedPast_iff.1 hpast
  exact exists_names_of_mem_walk hm

section
variable (hw : c.workingDirectory.isAbsolute = true)
include hw

theorem isPlain_of_mem_lookUp (h : .file p ∈ c.lookUp disk target) : p.IsPlain := by
  have hresolve : (c.resolve target).IsPlain := isPlain_clean (isAbsolute_join hw (Utf8.encode target))
  unfold lookUp at h
  dsimp only at h
  split at h
  · cases List.mem_singleton.1 h
    exact hresolve
  · split at h
    · obtain ⟨names, hn, rfl⟩ := exists_names_of_mem_walked h
      exact hresolve.below hn
    · obtain ⟨paths, hpaths, found, hfound, -, rfl⟩ := mem_searched_iff.1 h
      have habsolute : found.isAbsolute = true :=
        Target.of_mem_expand (P := fun p => p.isAbsolute = true) (fun _ name hp => isAbsolute_join hp name)
          (Target.head?_patternOf hw target) hpaths hfound rfl
      exact isPlain_clean habsolute

/-- Found files are below the root as it is spelled, or their paths are plain. -/
theorem below_or_isPlain_of_mem_finds (h : .file p ∈ c.finds disk targets) :
    (targets = [] ∧ ∃ names, (∀ n ∈ names, IsFileName n) ∧ p = c.root.below names) ∨
      targets ≠ [] ∧ p.IsPlain := by
  rw [finds] at h
  split at h
  next ht => exact .inl ⟨List.isEmpty_iff.1 ht, exists_names_of_mem_walked h⟩
  next ht =>
    obtain ⟨target, -, h⟩ := List.mem_flatMap.1 h
    exact .inr ⟨by simpa using ht, isPlain_of_mem_lookUp hw h⟩

theorem eq_of_components_eq_of_mem_finds (hp : .file p ∈ c.finds disk targets)
    (hq : .file q ∈ c.finds disk targets) (h : p.components = q.components) : p = q := by
  rcases below_or_isPlain_of_mem_finds hw hp with ⟨ht, names, hnames, rfl⟩ | ⟨ht, hplain⟩
  · rcases below_or_isPlain_of_mem_finds hw hq with ⟨-, more, hmore, rfl⟩ | ⟨hne, -⟩
    · rw [components_below hnames, components_below hmore, List.append_cancel_left_eq] at h
      rw [(List.map_inj_right fun _ _ => Component.name.inj).1 h]
    · exact absurd ht hne
  · rcases below_or_isPlain_of_mem_finds hw hq with ⟨hnil, -⟩ | ⟨-, hother⟩
    · exact absurd hnil ht
    · exact hplain.eq_of_components_eq hother h

variable (hroot : c.root.isAbsolute = true)
include hroot

theorem isAbsolute_of_mem_finds (h : .file p ∈ c.finds disk targets) : p.isAbsolute = true := by
  rcases below_or_isPlain_of_mem_finds hw h with ⟨-, names, -, rfl⟩ | ⟨-, hplain⟩
  · exact isAbsolute_below hroot names
  · exact hplain.absolute

theorem shown_eq_of_nameOf_eq (hp : .file p ∈ c.finds disk targets) (hq : .file q ∈ c.finds disk targets)
    (h : c.nameOf p = c.nameOf q) : p.shown = q.shown := by
  have hpabsolute := isAbsolute_of_mem_finds hw hroot hp
  have hqabsolute := isAbsolute_of_mem_finds hw hroot hq
  rcases below_or_isPlain_of_mem_finds hw hp with ⟨ht, names, hnames, rfl⟩ | ⟨ht, hplain⟩
  · rcases below_or_isPlain_of_mem_finds hw hq with ⟨-, more, hmore, rfl⟩ | ⟨hne, -⟩
    · exact (shown_below_eq_iff hnames hmore).2 (map_decodeLossy_eq_of_relativeTo_eq hroot hnames hmore h)
    · exact absurd ht hne
  · rcases below_or_isPlain_of_mem_finds hw hq with ⟨hnil, -⟩ | ⟨-, hother⟩
    · exact absurd hnil ht
    · rw [hplain.shown_eq, hother.shown_eq, posix_components_eq_of_relativeTo_eq hroot hpabsolute hqabsolute h]

theorem nodup_names_files : ((c.collect disk targets).files.map (·.name)).Nodup := by
  refine List.pairwise_map.2 (pairwise_files.imp_of_mem fun {f g} hf hg hlt hname => ?_)
  obtain ⟨hfound, hfname, -⟩ := mem_letThrough_of_mem_files hf
  obtain ⟨hgfound, hgname, -⟩ := mem_letThrough_of_mem_files hg
  have hshown : f.path.shown = g.path.shown :=
    shown_eq_of_nameOf_eq hw hroot hfound hgfound (by rw [← hfname, ← hgname, hname])
  rw [hshown] at hlt
  exact List.lt_irrefl _ hlt

end

/-- A name identifies its file as far as it shows text. Joined to the root it leads back to the path that it
was made of, component by component, exactly if what it shows of the path is text. Cleaned paths of one name are
shown alike, and so are files that turn up for some targets and are judged under one name; so different ones have
different names if these show text. No two blocks of a document carry one name, whatever the names show. -/
theorem name_identifies {root : Path} (hroot : root.isAbsolute = true) :
    (∀ p : Path, p.isAbsolute = true →
      ((root.join (Utf8.encode (relativeTo root p))).components = p.components ↔
        ∀ c ∈ named root p, c.IsText)) ∧
      (∀ p q : Path, p.isAbsolute = true → q.isAbsolute = true → p.clean ≠ q.clean →
        relativeTo root p.clean = relativeTo root q.clean → p.clean.shown = q.clean.shown ∧
          ¬ ((∀ c ∈ named root p.clean, c.IsText) ∧ ∀ c ∈ named root q.clean, c.IsText)) ∧
      ∀ workingDirectory rules followLinks disk targets, workingDirectory.isAbsolute = true →
        let c : Collector := ⟨root, workingDirectory, rules, followLinks⟩
        (∀ p q, .file p ∈ c.finds disk targets → .file q ∈ c.finds disk targets → p ≠ q →
          c.nameOf p = c.nameOf q → p.shown = q.shown ∧
            ¬ ((∀ c ∈ named root p, c.IsText) ∧ ∀ c ∈ named root q, c.IsText)) ∧
        ∀ recognize jobs document,
          let selected := Selection.of recognize disk (c.collect disk targets).files
          Document.compose jobs selected.disk.reader selected.files = .ok document →
            document.report.emitted.Nodup := by
  have hback : ∀ p q : Path, p.isAbsolute = true → q.isAbsolute = true →
      relativeTo root p = relativeTo root q → (∀ c ∈ named root p, c.IsText) →
      (∀ c ∈ named root q, c.IsText) → p.components = q.components := by
    intro p q hp hq h hptext hqtext
    rw [← (components_join_relativeTo_iff hroot hp).2 hptext, h]
    exact (components_join_relativeTo_iff hroot hq).2 hqtext
  refine ⟨fun p hp => components_join_relativeTo_iff hroot hp, ?_, ?_⟩
  · intro p q hp hq hne h
    have hplain := isPlain_clean hp
    have hother := isPlain_clean hq
    refine ⟨?_, fun ⟨hptext, hqtext⟩ => ?_⟩
    · rw [hplain.shown_eq, hother.shown_eq,
        posix_components_eq_of_relativeTo_eq hroot hplain.absolute hother.absolute h]
    · exact hne (hplain.eq_of_components_eq hother
        (hback _ _ hplain.absolute hother.absolute h hptext hqtext))
  · intro workingDirectory rules followLinks disk targets hw c
    refine ⟨fun p q hp hq hne h => ⟨shown_eq_of_nameOf_eq hw hroot hp hq h, fun ⟨hptext, hqtext⟩ => ?_⟩, ?_⟩
    · have hpabsolute := isAbsolute_of_mem_finds hw hroot hp
      have hqabsolute := isAbsolute_of_mem_finds hw hroot hq
      exact hne (eq_of_components_eq_of_mem_finds hw hp hq (hback p q hpabsolute hqabsolute h hptext hqtext))
    · intro recognize jobs document selected h
      have hnames : ((c.collect disk targets).files.map (·.name)).Nodup := nodup_names_files hw hroot
      have hselected := Selection.names_of_sublist recognize disk (c.collect disk targets).files
      exact ((Document.emitted_sublist_of_compose h).trans hselected).nodup hnames

theorem name_identifies_linkedTree :
    let root := pathOf [Utf8.ofString "w"]
    let c : Collector := ⟨root, root, ⟨[]⟩, false⟩
    let inner := pathOf [Utf8.ofString "w", Utf8.ofString "a", Utf8.ofString "b"]
    let outer := pathOf [Utf8.ofString "w", Utf8.ofString "a-"]
    root.isAbsolute = true ∧
      (root.join (Utf8.encode (relativeTo root (.ofText "/w/../x/.".toList)))).components =
        [.root, .name (Utf8.ofString "w"), .up, .name (Utf8.ofString "x")] ∧
      .file inner ∈ c.finds linkedTree [] ∧ .file outer ∈ c.finds linkedTree [] ∧
      c.nameOf inner ≠ c.nameOf outer ∧
      ∀ recognize jobs document,
        let selected := Selection.of recognize linkedTree (c.collect linkedTree []).files
        Document.compose jobs selected.disk.reader selected.files = .ok document →
          document.report.emitted.Nodup := by
  intro root c inner outer
  have hroot : root.isAbsolute = true := by decide
  obtain ⟨hjoin, -, hfinds⟩ := name_identifies hroot
  obtain ⟨hnames, hdocument⟩ := hfinds root ⟨[]⟩ false linkedTree [] hroot
  have hopen : ∀ (n : Node) (place below : Place), n.IsOpen c.leavesOut place below :=
    fun n place below front _ _ es _ => by simp [leavesOut, c, Ruleset.mayPrune, Ruleset.verdict,
      Verdict.isExcluded]
  have hinner : .file inner ∈ c.finds linkedTree [] :=
    (mem_walked_iff rfl at?_linkedTree).2
      ⟨[Utf8.ofString "a", Utf8.ofString "b"], ⟨_, rfl, .inl rfl⟩, rfl, hopen _ _ _⟩
  have houter : .file outer ∈ c.finds linkedTree [] :=
    (mem_walked_iff rfl at?_linkedTree).2 ⟨[Utf8.ofString "a-"], ⟨_, rfl, .inl rfl⟩, rfl, hopen _ _ _⟩
  refine ⟨hroot, ?_, hinner, houter, fun h => ?_, hdocument⟩
  · exact ((hjoin (.ofText "/w/../x/.".toList) (by decide)).2 (by decide +kernel)).trans (by decide +kernel)
  · exact absurd (hnames inner outer hinner houter (by decide +kernel) h).1 (by decide +kernel)

/-- Two files of one root have one name, and joined to the root it leads to neither of them. -/
theorem name_identifies_ne_alike :
    let root := pathOf [Utf8.ofString "r"]
    let p := pathOf [Utf8.ofString "r", [0xFF]]
    let q := pathOf [Utf8.ofString "r", [0xFE]]
    root.isAbsolute = true ∧ p.isAbsolute = true ∧ q.isAbsolute = true ∧ p.clean ≠ q.clean ∧
      relativeTo root p.clean = relativeTo root q.clean ∧
      (root.join (Utf8.encode (relativeTo root p))).components ≠ p.components ∧
      (root.join (Utf8.encode (relativeTo root q))).components ≠ q.components := by
  decide +kernel

end Collector
end Folio
