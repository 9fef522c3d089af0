import Folio.Proofs.Collection.Kept
import Folio.Proofs.Walk.Listing
import Folio.Proofs.Walk.Pruned

/-!
# Collections without pruning

A walk passes over the directories that the rules exclude. Below such a directory the rules exclude every
file as well, unless the root lies below the directory: names of files in the root begin anew there. So a
walk that begins above the root may lose the files of the root, and it loses no others.
-/
namespace Folio

namespace Collector
open Disk
variable {c : Collector} {disk : Disk} {targets : List Text} {start d : Path} {names rest : List Bytes}
  {prune : Path → Bool}

def passesOver (c : Collector) (p : Path) : Bool := c.rules.mayPrune (c.nameOf p)

/-- The files of a walk that passes over the directories that `prune` names. -/
def walkedPast (c : Collector) (prune : Path → Bool) (disk : Disk) (start : Path) : List Find :=
  (disk.walk c.followLinks prune start).filterMap fun
    | .ok e => if disk.countsAsFile e then some (.file e.path) else none
    | .error fault => some (.report (.accessFault fault))

def lookUpPast (c : Collector) (prune : Path → Bool) (disk : Disk) (target : Text) : List Find :=
  let path := c.resolve target
  if disk.isFile path then [.file path]
  else if disk.isDirectory path then c.walkedPast prune disk path
  else c.searched disk target

def findsPast (c : Collector) (prune : Path → Bool) (disk : Disk) (targets : List Text) : List Find :=
  if targets.isEmpty then c.walkedPast prune disk c.root else targets.flatMap (c.lookUpPast prune disk)

def collectPast (c : Collector) (prune : Path → Bool) (disk : Disk) (targets : List Text) : Collection :=
  c.judged (c.findsPast prune disk targets)

/-- The collection by walks that enter every directory. -/
def collectAll (c : Collector) : Disk → List Text → Collection := c.collectPast fun _ => false

theorem collectPast_passesOver : c.collectPast c.passesOver disk targets = c.collect disk targets := rfl

theorem mem_walkedPast_iff {p : Path} : .file p ∈ c.walkedPast prune disk start ↔
    ∃ kind, .ok ⟨p, kind⟩ ∈ disk.walk c.followLinks prune start ∧
      disk.countsAsFile ⟨p, kind⟩ = true := by
  rw [walkedPast, List.mem_filterMap]
  constructor
  · intro h
    obtain ⟨found, hm, hf⟩ := h
    cases found with
    | error fault => simp at hf
    | ok e =>
      obtain ⟨hcounts, rfl⟩ : disk.countsAsFile e = true ∧ e.path = p := by simpa using hf
      exact ⟨e.kind, hm, hcounts⟩
  · intro h
    obtain ⟨kind, hm, hcounts⟩ := h
    exact ⟨_, hm, by simp [hcounts]⟩

theorem kind_ne_directory {p : Path} {kind : Kind} (h : disk.countsAsFile ⟨p, kind⟩ = true) :
    kind ≠ .directory := by
  rintro rfl
  simp [countsAsFile] at h

/-- The rules exclude what is below a directory that walks pass over, unless the root is in between. -/
theorem isExcluded_below_passed {cs : List Component} {n : Bytes} (hd : d.components = cs ++ [.name n])
    (hn : n ≠ []) (hrest : ∀ m ∈ rest, IsFileName m) (hne : rest ≠ []) (hp : c.passesOver d = true)
    (h : ¬ (d.components <+: c.root.components ∧ c.root.components <+: (d.below rest).components)) :
    (c.rules.verdict (c.nameOf (d.below rest)) false).isExcluded = true := by
  by_cases hroot : d.components <+: c.root.components
  · have hout : ¬ c.root.components <+: (d.below rest).components := fun hr => h ⟨hroot, hr⟩
    have habove : d.components ≠ c.root.components := by
      intro he
      rw [Path.components_below hrest, he] at hout
      exact hout (List.prefix_append _ _)
    have hname : c.nameOf d ≠ [] := by
      rw [nameOf, Path.relativeTo_above hroot habove, hd]
      exact Path.posix_ne_nil hn
    rw [nameOf, Path.relativeTo_below_outside hd hout hrest hne]
    exact Ruleset.isExcluded_below hp hname _
  · rw [nameOf, Path.relativeTo_below hd hroot hrest hne]
    exact Ruleset.isExcluded_below hp (Path.relativeTo_ne_nil hd hroot hn) _

/-- A walk from `start` passes over a directory on its way down to the root. -/
def HidesRoot (c : Collector) (start : Path) : Prop :=
  ∃ way, start.components <+: way ∧ way ≠ start.components ∧ way <+: c.root.components ∧
    way ≠ c.root.components ∧ c.rules.mayPrune (Path.posix way) = true

theorem not_hidesRoot_of_isClear (hn : ∀ n ∈ names, IsFileName n)
    (hclear : Visit.IsClear c.passesOver start names)
    (hroot : c.root.components <+: (start.below names).components) : ¬ c.HidesRoot start := by
  intro h
  obtain ⟨way, hstart, hne, habove, hnot, hp⟩ := h
  obtain ⟨more, rfl⟩ := hstart
  have hway := habove.trans hroot
  rw [Path.components_below hn, List.prefix_append_right_inj] at hway
  obtain ⟨front, hfront, rfl⟩ := List.prefix_map_iff.1 hway
  have hcomponents : (start.below front).components = start.components ++ front.map .name :=
    Path.components_below fun n hm => hn n (hfront.subset hm)
  have hpassed : c.passesOver (start.below front) = true := by
    rw [passesOver, nameOf, Path.relativeTo_above (hcomponents ▸ habove) (hcomponents ▸ hnot), hcomponents]
    exact hp
  rw [hclear front (by rintro rfl; simp at hne) hfront ?_] at hpassed
  · cases hpassed
  · rintro rfl
    rw [← hcomponents] at habove hnot
    exact hnot (habove.eq_of_length_le hroot.length_le)

theorem hidesRoot_of_passesOver (hn : ∀ n ∈ names, IsFileName n) (hne : names ≠ [])
    (h : (start.below names).components <+: c.root.components)
    (hp : c.passesOver (start.below names) = true) : c.HidesRoot start := by
  have hcomponents : (start.below names).components = start.components ++ names.map .name :=
    Path.components_below hn
  have habove : (start.below names).components ≠ c.root.components := by
    intro he
    rw [passesOver, nameOf, Path.relativeTo_of_components_eq he] at hp
    simp [Ruleset.mayPrune] at hp
  refine ⟨(start.below names).components, ?_, ?_, h, habove, ?_⟩
  · rw [hcomponents]
    exact List.prefix_append _ _
  · simp [hcomponents, hne]
  · rwa [passesOver, nameOf, Path.relativeTo_above h habove] at hp

theorem isClear_of_not_excluded (hn : ∀ n ∈ names, IsFileName n)
    (hx : (c.rules.verdict (c.nameOf (start.below names)) false).isExcluded = false)
    (hroot : c.root.components <+: (start.below names).components → ¬ c.HidesRoot start) :
    Visit.IsClear c.passesOver start names := by
  intro front hne hfront hnames
  obtain ⟨rest, rfl⟩ := hfront
  have hrest : rest ≠ [] := by
    rintro rfl
    simp at hnames
  rw [List.forall_mem_append] at hn
  rw [Path.below_append] at hx hroot
  by_contra hp
  have hpassed : c.passesOver (start.below front) = true := by simpa using hp
  -- the file is let through, so that the root must be between it and the directory passed over
  have hbetween : (start.below front).components <+: c.root.components ∧
      c.root.components <+: ((start.below front).below rest).components := by
    by_contra hout
    obtain ⟨cs, n, hlast, hname⟩ := Path.exists_components_below_eq hn.1 hne
    have hexcluded := isExcluded_below_passed hlast hname hn.2 hrest hpassed hout
    rw [hx] at hexcluded
    cases hexcluded
  exact hroot hbetween.2 (hidesRoot_of_passesOver hn.1 hne hbetween.1 hpassed)

def letThroughFound? (c : Collector) (disk : Disk) : Found → Option Candidate
  | .ok e => if disk.countsAsFile e then c.letThrough? (.file e.path) else none
  | .error _ => none

theorem letThroughFound?_eq_some_iff {found : Found} {f : Candidate} :
    c.letThroughFound? disk found = some f ↔ ∃ kind, found = .ok ⟨f.path, kind⟩ ∧
      disk.countsAsFile ⟨f.path, kind⟩ = true ∧ f.name = c.nameOf f.path ∧
        (c.rules.verdict f.name false).isExcluded = false := by
  cases found with
  | error fault => simp [letThroughFound?]
  | ok e =>
    obtain ⟨path, kind⟩ := e
    obtain ⟨p, name⟩ := f
    simp only [letThroughFound?, letThrough?]
    constructor
    · intro h
      split at h
      next hcounts =>
        split at h
        · cases h
        next hx =>
          cases h
          exact ⟨kind, rfl, hcounts, rfl, by simpa using hx⟩
      next => cases h
    · rintro ⟨kind, he, hcounts, rfl, hx⟩
      cases he
      rw [if_pos hcounts, if_neg (by simp [hx])]

theorem letThrough_walkedPast_eq (prune : Path → Bool) (disk : Disk) (start : Path) :
    c.letThrough (c.walkedPast prune disk start) =
      (disk.walk c.followLinks prune start).filterMap (c.letThroughFound? disk) := by
  rw [letThrough, walkedPast, List.filterMap_filterMap]
  refine List.filterMap_congr fun found _ => ?_
  cases found with
  | error fault => rfl
  | ok e =>
    simp only [letThroughFound?]
    split <;> rfl

/-- The candidate is not one of the root that a walk from `start` loses. -/
def Remains (c : Collector) (start : Path) (f : Candidate) : Prop :=
  c.root.components <+: f.path.components → ¬ c.HidesRoot start

open Classical in
/-- Of what the rules let through, a walk loses the files of the root where it passes over a directory on its way
to the root, and nothing else. -/
theorem letThrough_walkedPast (disk : Disk) (start : Path) :
    c.letThrough (c.walkedPast c.passesOver disk start) =
      (c.letThrough (c.walkedPast (fun _ => false) disk start)).filter fun f => c.Remains start f := by
  rw [letThrough_walkedPast_eq, letThrough_walkedPast_eq, List.filter_filterMap]
  have hmet : (disk.walk c.followLinks c.passesOver start).filterMap (c.letThroughFound? disk) =
      (disk.walk c.followLinks c.passesOver start).filterMap fun found =>
        (c.letThroughFound? disk found).filter fun f => c.Remains start f := by
    refine List.filterMap_congr fun found hfound => ?_
    cases hf : c.letThroughFound? disk found with
    | none => rfl
    | some f =>
      obtain ⟨kind, rfl, hcounts, -⟩ := letThroughFound?_eq_some_iff.1 hf
      obtain ⟨names, hn, hpath⟩ := exists_names_of_mem_walk hfound
      rw [hpath] at hfound hcounts
      have hclear := ((mem_walk_below_iff hn (kind_ne_directory hcounts)).1 hfound).2
      have hremains : c.Remains start f := by
        intro hroot
        rw [hpath] at hroot
        exact not_hidesRoot_of_isClear hn hclear hroot
      simp [Option.filter, hremains]
  rw [hmet]
  apply filterMap_walk
  refine ⟨fun _ => rfl, fun _ => rfl, fun names rest kind hn hnames hrest hp => ?_⟩
  rw [Option.filter_eq_none_iff]
  intro f hf
  obtain ⟨_, hfound, -, hname, hx⟩ := letThroughFound?_eq_some_iff.1 hf
  obtain ⟨hpath, -⟩ := Entry.mk.inj (Except.ok.inj hfound)
  rw [decide_eq_true_eq, Remains, ← hpath]
  intro hroot
  rw [hname, ← hpath] at hx
  have hclear :=
    isClear_of_not_excluded hn hx hroot names hnames (List.prefix_append names rest) (by simpa using hrest)
  rw [hp] at hclear
  cases hclear

theorem lookUpPast_directory {target : Text} (hd : disk.isDirectory (c.resolve target) = true) :
    c.lookUpPast prune disk target = c.walkedPast prune disk (c.resolve target) := by
  simp [lookUpPast, isFile_eq_false_of_isDirectory hd, hd]

theorem letThrough_findsPast (hne : targets ≠ []) (hd : ∀ t ∈ targets, disk.isDirectory (c.resolve t) = true) :
    c.letThrough (c.findsPast prune disk targets) =
      targets.flatMap fun t => c.letThrough (c.walkedPast prune disk (c.resolve t)) := by
  rw [findsPast, if_neg (by simpa using hne), letThrough, List.filterMap_flatMap]
  refine List.flatMap_congr fun t ht => ?_
  rw [lookUpPast_directory (hd t ht)]
  rfl

/-- What is let through of directories: what walks that enter every directory let through, where files of the
root must be found from a directory that does not hide the root. -/
theorem mem_letThrough_directories_iff (hne : targets ≠ [])
    (hd : ∀ t ∈ targets, disk.isDirectory (c.resolve t) = true) {f : Candidate} :
    f ∈ c.letThrough (c.finds disk targets) ↔ f ∈ c.letThrough (c.findsPast (fun _ => false) disk targets) ∧
      (c.root.components <+: f.path.components → ∃ t ∈ targets,
        .file f.path ∈ c.walkedPast (fun _ => false) disk (c.resolve t) ∧ ¬ c.HidesRoot (c.resolve t)) := by
  have hfinds : c.finds disk targets = c.findsPast c.passesOver disk targets := rfl
  rw [hfinds, letThrough_findsPast hne hd, letThrough_findsPast hne hd, List.mem_flatMap, List.mem_flatMap]
  simp only [letThrough_walkedPast, List.mem_filter, decide_eq_true_eq]
  constructor
  · rintro ⟨t, ht, hf, hremains⟩
    exact ⟨⟨t, ht, hf⟩, fun hroot => ⟨t, ht, (mem_letThrough_iff.1 hf).1, hremains hroot⟩⟩
  · rintro ⟨⟨t, ht, hf⟩, hroot⟩
    by_cases hin : c.root.components <+: f.path.components
    · obtain ⟨u, hu, hfound, hhides⟩ := hroot hin
      exact ⟨u, hu, mem_letThrough_iff.2 ⟨hfound, (mem_letThrough_iff.1 hf).2⟩, fun _ => hhides⟩
    · exact ⟨t, ht, hf, fun h => absurd h hin⟩

/-- For directories of which none is above the root pruning changes nothing. -/
theorem files_collect_eq_of_not_above (hne : targets ≠ [])
    (hd : ∀ t ∈ targets, disk.isDirectory (c.resolve t) = true)
    (habove : ∀ t ∈ targets, (c.resolve t).components <+: c.root.components →
      (c.resolve t).components = c.root.components) :
    (c.collect disk targets).files = (c.collectAll disk targets).files := by
  have hhides : ∀ t ∈ targets, ¬ c.HidesRoot (c.resolve t) := by
    rintro t ht ⟨way, hstart, -, hway, hnot, -⟩
    rw [habove t ht (hstart.trans hway)] at hstart
    exact hnot (hway.eq_of_length_le hstart.length_le)
  rw [← collectPast_passesOver, collectAll, collectPast, collectPast, files_judged, files_judged,
    letThrough_findsPast hne hd, letThrough_findsPast hne hd]
  congr 1
  refine List.flatMap_congr fun t ht => ?_
  rw [letThrough_walkedPast, List.filter_eq_self]
  intro f _
  simp [Remains, hhides t ht]

/-- If pruning changes nothing for directories, then each file of the root that walks into every directory keep is
found from a directory that does not hide the root. And this is enough where no two of the files are shown
alike. -/
theorem files_collect_eq_iff (hne : targets ≠ [])
    (hd : ∀ t ∈ targets, disk.isDirectory (c.resolve t) = true) :
    let found := ∀ f ∈ (c.collectAll disk targets).files, c.root.components <+: f.path.components →
      ∃ t ∈ targets, .file f.path ∈ c.walkedPast (fun _ => false) disk (c.resolve t) ∧
        ¬ c.HidesRoot (c.resolve t)
    ((c.collect disk targets).files = (c.collectAll disk targets).files → found) ∧
      (Candidate.TellsApart (c.letThrough (c.findsPast (fun _ => false) disk targets)) →
        found → (c.collect disk targets).files = (c.collectAll disk targets).files) := by
  intro found
  constructor
  · intro h f hf
    rw [← h] at hf
    exact ((mem_letThrough_directories_iff hne hd).1 (mem_files_iff.1 hf).mem).2
  · intro hapart h
    have hpruned : Candidate.TellsApart (c.letThrough (c.finds disk targets)) := fun f hf g hg =>
      hapart f ((mem_letThrough_directories_iff hne hd).1 hf).1 g ((mem_letThrough_directories_iff hne hd).1 hg).1
    have hall : (c.collectAll disk targets).files =
        Candidate.settle (c.letThrough (c.findsPast (fun _ => false) disk targets)) := files_judged _
    rw [files_collect, hall]
    apply Candidate.eq_of_mem_iff (Candidate.pairwise_settle _) (Candidate.pairwise_settle _)
    intro f
    rw [hpruned.mem_settle_iff, hapart.mem_settle_iff, mem_letThrough_directories_iff hne hd]
    exact and_iff_left_of_imp fun hf => h f (hall ▸ hapart.mem_settle_iff.2 hf)

def nestedFile : Disk where
  top := .directory [(Utf8.ofString "a", .directory [(Utf8.ofString "b", .directory [
    (Utf8.ofString "f", .file [] 0)])])]
  current := []
  sound := by decide

/-- A collector for the inner directory, with a rule that excludes the outer one. -/
def innerCollector : Collector :=
  ⟨pathOf [Utf8.ofString "a", Utf8.ofString "b"], pathOf [], Ruleset.ofTexts ["**/a".toList], false⟩

theorem isDirectory_nestedFile : ∀ t ∈ [['/'], ['/', 'a']],
    nestedFile.isDirectory (innerCollector.resolve t) = true := by
  have htop : innerCollector.resolve ['/'] = pathOf [] := by decide
  have houter : innerCollector.resolve ['/', 'a'] = pathOf [Utf8.ofString "a"] := by decide
  simp only [List.forall_mem_cons, htop, houter]
  exact ⟨isDirectory_pathOf rfl, isDirectory_pathOf rfl, by simp⟩

theorem findsPast_nestedFile (prune : Path → Bool) : innerCollector.findsPast prune nestedFile [['/']] =
    innerCollector.walkedPast prune nestedFile (pathOf []) := by
  have hresolve : innerCollector.resolve ['/'] = pathOf [] := by decide
  have hd := isDirectory_nestedFile ['/'] (by simp)
  rw [findsPast, if_neg (by simp), List.flatMap_singleton, lookUpPast_directory hd, hresolve]

theorem findsPast_nestedFile_all : innerCollector.findsPast (fun _ => false) nestedFile [['/']] =
    [.file (pathOf [Utf8.ofString "a", Utf8.ofString "b", Utf8.ofString "f"])] := by
  have hwalk : nestedFile.walk innerCollector.followLinks (fun _ => false) (pathOf []) =
      (nestedFile.top.listing (fun _ => false) []).map foundAt := walk_pathOf rfl
  rw [findsPast_nestedFile, walkedPast, hwalk]
  rfl

theorem files_collect_eq_iff_nestedFile :
    let targets : List Text := [['/']]
    targets ≠ [] ∧ (∀ t ∈ targets, nestedFile.isDirectory (innerCollector.resolve t) = true) ∧
      Candidate.TellsApart
        (innerCollector.letThrough (innerCollector.findsPast (fun _ => false) nestedFile targets)) ∧
      ((innerCollector.collect nestedFile targets).files =
          (innerCollector.collectAll nestedFile targets).files ↔
        ∀ f ∈ (innerCollector.collectAll nestedFile targets).files,
          innerCollector.root.components <+: f.path.components → ∃ t ∈ targets,
            .file f.path ∈ innerCollector.walkedPast (fun _ => false) nestedFile (innerCollector.resolve t) ∧
              ¬ innerCollector.HidesRoot (innerCollector.resolve t)) := by
  intro targets
  have hne : targets ≠ [] := by simp [targets]
  have hd : ∀ t ∈ targets, nestedFile.isDirectory (innerCollector.resolve t) = true := by
    simpa [targets] using isDirectory_nestedFile ['/'] (by simp)
  have hapart : Candidate.TellsApart
      (innerCollector.letThrough (innerCollector.findsPast (fun _ => false) nestedFile targets)) := by
    rw [findsPast_nestedFile_all]
    decide +kernel
  obtain ⟨hfound, hequal⟩ := files_collect_eq_iff hne hd
  exact ⟨hne, hd, hapart, hfound, hequal hapart⟩

/-- From above the outer directory the file in the root is lost, although the rules let it through. -/
theorem files_collect_ne_above :
    nestedFile.canonical innerCollector.root = .ok innerCollector.root ∧
      nestedFile.isDirectory (innerCollector.resolve ['/']) = true ∧
      (innerCollector.collect nestedFile [['/']]).files = [] ∧
      (innerCollector.collectAll nestedFile [['/']]).files =
        [⟨pathOf [Utf8.ofString "a", Utf8.ofString "b", Utf8.ofString "f"], ['f']⟩] := by
  have hp : innerCollector.passesOver (pathOf [Utf8.ofString "a"]) = true := by decide +kernel
  have hwalk : nestedFile.walk innerCollector.followLinks innerCollector.passesOver (pathOf []) =
      (nestedFile.top.listing (fun p => innerCollector.passesOver (pathOf p)) []).map foundAt := walk_pathOf rfl
  refine ⟨canonical_pathOf rfl, isDirectory_nestedFile ['/'] (by simp), ?_, ?_⟩
  · have hnone : innerCollector.findsPast innerCollector.passesOver nestedFile [['/']] = [] := by
      rw [findsPast_nestedFile, walkedPast, hwalk]
      simp [nestedFile, Node.listing, Node.listingInside, Node.isDirectory, hp, foundAt, countsAsFile]
    rw [← collectPast_passesOver, collectPast, hnone]
    rfl
  · rw [collectAll, collectPast, findsPast_nestedFile_all]
    decide +kernel

end Collector
end Folio
