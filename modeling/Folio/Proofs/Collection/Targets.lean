import Folio.Proofs.Collection.WholeTree

/-!
# Collections of targets

A target in the root picks out of the whole tree what stands at it or below it. It does not matter that a
target may itself be in a directory that a walk of the whole tree passes over. But of files that are shown alike
the one that is kept depends on which of them a target picks.
-/
namespace Folio

theorem Node.IsOpen.at {n m : Node} {prune : Place → Bool} {here front below : Place}
    (h : n.at? front = some m) (ho : n.IsOpen prune here (front ++ below)) :
    m.IsOpen prune (here ++ front) below := by
  intro inner hne hinner es hes
  have hall : prune (here ++ (front ++ inner)) = false := by
    apply ho (front ++ inner) (by simp [hne]) ((List.prefix_append_right_inj front).2 hinner) es
    rw [Node.at?_append, h]
    exact hes
  rwa [List.append_assoc]

namespace Disk
variable {disk : Disk} {place below : Place} {es : List (Bytes × Node)} {n : Node}

/-- A directory stands at the place, or a file, or a link that leads to a file. -/
def HoldsTarget (disk : Disk) (place : Place) : Prop :=
  (∃ es, disk.top.at? place = some (.directory es)) ∨ disk.HoldsFile place

theorem HoldsTarget.isFileName (h : disk.HoldsTarget place) :
    ∀ n ∈ place, IsFileName n := by
  rcases h with ⟨es, hes⟩ | hfile
  · exact fun n hn => disk.sound.isFileName_of_mem hes hn
  · exact hfile.isFileName

theorem top_isDirectory (h : disk.top.at? place = some (.directory es)) : disk.top.isDirectory = true := by
  cases place with
  | nil =>
    rw [Option.some.inj h]
    rfl
  | cons name rest =>
    obtain ⟨_, _, htop, -, -⟩ := Node.at?_cons_eq_some h
    rw [htop]
    rfl

theorem isFile_pathOf (htop : disk.top.isDirectory = true)
    (h : disk.HoldsFile place) : disk.isFile (pathOf place) = true := by
  obtain ⟨m, hm, hk⟩ := h
  rcases hk with hk | hk
  · cases m with
    | file content modified =>
      have hd : place = [] → (Node.file content modified).isDirectory = true := by
        rintro rfl
        rwa [Option.some.inj hm] at htop
      rw [isFile, find_pathOf hm hd (by simp)]
    | _ => cases hk
  · exact hk.2

theorem HoldsFile.eq_nil (h : disk.HoldsFile place) (hbelow : disk.HoldsFile (place ++ below)) :
    below = [] := by
  by_contra hne
  obtain ⟨name, rest, rfl⟩ := List.exists_cons_of_ne_nil hne
  obtain ⟨m, hm, -⟩ := hbelow
  rw [Node.at?_append] at hm
  obtain ⟨n, hn, hm⟩ := Option.bind_eq_some_iff.1 hm
  obtain ⟨es, -, rfl, -, -⟩ := Node.at?_cons_eq_some hm
  exact h.not_directory hn

theorem prefix_components_pathOf_iff {p q : Place} (hp : ∀ n ∈ p, IsFileName n)
    (hq : ∀ n ∈ q, IsFileName n) : (pathOf p).components <+: (pathOf q).components ↔ p <+: q := by
  rw [Path.components_pathOf hp, Path.components_pathOf hq, List.cons_prefix_cons]
  have hinjective : Function.Injective Component.name := fun _ _ => Component.name.inj
  simp [List.prefix_map_iff_of_injective hinjective]

end Disk

namespace Collector
open Disk
variable {disk : Disk} {root place : Place} {es : List (Bytes × Node)} {c : Collector} {path : Path}
  {target : Text} {targets : List Text}

theorem mem_lookUp_iff (hlinks : c.followLinks = false)
    (htop : disk.top.isDirectory = true) (hplace : c.resolve target = pathOf place)
    (h : disk.HoldsTarget place) : .file path ∈ c.lookUp disk target ↔
      ∃ below, disk.HoldsFile (place ++ below) ∧ path = pathOf (place ++ below) ∧
        ∀ es, disk.top.at? place = some (.directory es) →
          (Node.directory es).IsOpen c.leavesOut place below := by
  rcases h with ⟨es, hes⟩ | hfile
  · have hd := isDirectory_pathOf hes
    have hlookUp : c.lookUp disk target = c.walked disk (pathOf place) := by
      simp [lookUp, hplace, hd, isFile_eq_false_of_isDirectory hd]
    rw [hlookUp, mem_walked_iff hlinks hes]
    simp [hes]
  · have hlookUp : c.lookUp disk target = [.file (pathOf place)] := by
      simp [lookUp, hplace, isFile_pathOf htop hfile]
    rw [hlookUp]
    constructor
    · intro hm
      cases List.mem_singleton.1 hm
      refine ⟨[], by simpa using hfile, by simp, fun es hes => ?_⟩
      exact absurd hes hfile.not_directory
    · intro hm
      obtain ⟨below, hbelow, rfl, -⟩ := hm
      simp [hfile.eq_nil hbelow]

/-- A file that the rules let through turns up for a target in the root exactly when it turns up in the
whole tree and is the target or below it. -/
theorem mem_lookUp_iff_mem_walked (hlinks : c.followLinks = false)
    (hroot : c.root = pathOf root) (hes : disk.top.at? root = some (.directory es))
    (hplace : c.resolve target = pathOf place) (hin : c.root.components <+: (c.resolve target).components)
    (h : disk.HoldsTarget place) (hx : (c.rules.verdict (c.nameOf path) false).isExcluded = false) :
    .file path ∈ c.lookUp disk target ↔
      .file path ∈ c.walked disk c.root ∧ (c.resolve target).components <+: path.components := by
  have hnames := h.isFileName
  rw [hroot, hplace, prefix_components_pathOf_iff (fun n hn => disk.sound.isFileName_of_mem hes hn) hnames] at hin
  obtain ⟨front, rfl⟩ := hin
  rw [mem_lookUp_iff hlinks (top_isDirectory hes) hplace h, hroot, mem_walked_iff hlinks hes, hplace]
  constructor
  · intro hm
    obtain ⟨below, hfile, rfl, -⟩ := hm
    rw [prefix_components_pathOf_iff hnames (hfile.isFileName)]
    refine ⟨⟨front ++ below, ?_⟩, List.prefix_append _ _⟩
    -- the walk of the whole tree gets to the file although it may pass over directories above the target
    rw [List.append_assoc] at hfile hx
    rw [List.append_assoc]
    exact ⟨hfile, rfl, isOpen_of_not_excluded hroot hes hfile hx⟩
  · intro hm
    obtain ⟨⟨below, hfile, rfl, ho⟩, hprefix⟩ := hm
    rw [prefix_components_pathOf_iff hnames (hfile.isFileName), List.prefix_append_right_inj] at hprefix
    obtain ⟨rest, rfl⟩ := hprefix
    rw [← List.append_assoc] at hfile
    refine ⟨rest, hfile, by rw [List.append_assoc], fun inner hi => ?_⟩
    rw [Node.at?_append, hes] at hi
    exact ho.at hi

/-- Targets that are in the root and reached through directories only let through of the whole tree what is one
of them or below one of them. -/
theorem mem_letThrough_targets_iff {start : Path} {f : Candidate} (hlinks : c.followLinks = false)
    (hc : disk.canonical start = .ok c.root) (hd : disk.isDirectory c.root = true) (hne : targets ≠ [])
    (ht : ∀ t ∈ targets, ∃ place, c.resolve t = pathOf place ∧
      c.root.components <+: (c.resolve t).components ∧ disk.HoldsTarget place) :
    f ∈ c.letThrough (c.finds disk targets) ↔ f ∈ c.letThrough (c.finds disk []) ∧
      targets.any (fun t => (c.resolve t).components.isPrefixOf f.path.components) = true := by
  obtain ⟨root, es, hroot, hes⟩ := canonical_directory hc hd
  have hfinds : .file f.path ∈ c.finds disk targets ↔ ∃ t ∈ targets, .file f.path ∈ c.lookUp disk t := by
    rw [finds, if_neg (by simpa using hne), List.mem_flatMap]
  have hlookUp : f.name = c.nameOf f.path → (c.rules.verdict f.name false).isExcluded = false →
      ∀ t ∈ targets, (.file f.path ∈ c.lookUp disk t ↔
        .file f.path ∈ c.walked disk c.root ∧ (c.resolve t).components <+: f.path.components) := by
    intro hname hx t hmem
    obtain ⟨place, hplace, hin, hholds⟩ := ht t hmem
    exact mem_lookUp_iff_mem_walked hlinks hroot hes hplace hin hholds (hname ▸ hx)
  have hwhole : c.finds disk [] = c.walked disk c.root := rfl
  simp only [mem_letThrough_iff, hfinds, hwhole, List.any_eq_true, List.isPrefixOf_iff_prefix]
  constructor
  · intro h
    obtain ⟨⟨t, hmem, hfile⟩, hname, hx⟩ := h
    obtain ⟨hfile, hprefix⟩ := (hlookUp hname hx t hmem).1 hfile
    exact ⟨⟨hfile, hname, hx⟩, t, hmem, hprefix⟩
  · intro h
    obtain ⟨⟨hfile, hname, hx⟩, t, hmem, hprefix⟩ := h
    exact ⟨⟨t, hmem, (hlookUp hname hx t hmem).2 ⟨hfile, hprefix⟩⟩, hname, hx⟩

/-- Targets that are in the root and reached through directories only keep nothing but what the rules let through
of the whole tree and what is one of them or below one of them, and something that is shown alike for all of it.
If the tree has no files that are shown alike, they pick it out of the collection of the whole tree, in the same
order. -/
theorem files_targets {start : Path} (hlinks : c.followLinks = false)
    (hc : disk.canonical start = .ok c.root) (hd : disk.isDirectory c.root = true) (hne : targets ≠ [])
    (ht : ∀ t ∈ targets, ∃ place, c.resolve t = pathOf place ∧
      c.root.components <+: (c.resolve t).components ∧ disk.HoldsTarget place) :
    let whole := c.letThrough (c.finds disk [])
    let picked (f : Candidate) := targets.any fun t => (c.resolve t).components.isPrefixOf f.path.components
    (∀ f ∈ (c.collect disk targets).files, f ∈ whole ∧ picked f = true) ∧
      (∀ f ∈ whole, picked f = true → ∃ g ∈ (c.collect disk targets).files, g.path.shown = f.path.shown) ∧
      (Candidate.TellsApart whole →
        (c.collect disk targets).files = (c.collect disk []).files.filter picked) := by
  intro whole picked
  have hmem : ∀ f, f ∈ c.letThrough (c.finds disk targets) ↔ f ∈ whole ∧ picked f = true :=
    fun _ => mem_letThrough_targets_iff hlinks hc hd hne ht
  refine ⟨fun f hf => (hmem f).1 (mem_files_iff.1 hf).mem, fun f hf hp => ?_, fun hwhole => ?_⟩
  · obtain ⟨g, hg, hshown⟩ := Candidate.exists_isLast ((hmem f).2 ⟨hf, hp⟩)
    exact ⟨g, mem_files_iff.2 hg, hshown⟩
  · have htargets : Candidate.TellsApart (c.letThrough (c.finds disk targets)) :=
      fun f hf g hg => hwhole f ((hmem f).1 hf).1 g ((hmem g).1 hg).1
    apply Candidate.eq_of_mem_iff pairwise_files (pairwise_files.filter _)
    intro f
    rw [files_collect, files_collect, htargets.mem_settle_iff, hmem, List.mem_filter, hwhole.mem_settle_iff]

theorem files_targets_linkedTree :
    let c : Collector := ⟨pathOf [Utf8.ofString "w"], pathOf [Utf8.ofString "w"],
      Ruleset.ofTexts ["/a/".toList], false⟩
    let targets : List Text := ["a".toList, "../w/a-".toList]
    c.followLinks = false ∧ linkedTree.canonical c.root = .ok c.root ∧
      linkedTree.isDirectory c.root = true ∧ targets ≠ [] ∧
      (∀ t ∈ targets, ∃ place, c.resolve t = pathOf place ∧
        c.root.components <+: (c.resolve t).components ∧ linkedTree.HoldsTarget place) ∧
      Candidate.TellsApart (c.letThrough (c.finds linkedTree [])) ∧
      (c.collect linkedTree targets).files = (c.collect linkedTree []).files.filter fun f =>
        targets.any fun t => (c.resolve t).components.isPrefixOf f.path.components := by
  intro c targets
  have hc : linkedTree.canonical c.root = .ok c.root := canonical_pathOf rfl
  have hd : linkedTree.isDirectory c.root = true := isDirectory_pathOf rfl
  have hne : targets ≠ [] := by simp [targets]
  have ht : ∀ t ∈ targets, ∃ place, c.resolve t = pathOf place ∧
      c.root.components <+: (c.resolve t).components ∧ linkedTree.HoldsTarget place := by
    intro t hmem
    simp only [targets, List.mem_cons, List.not_mem_nil, or_false] at hmem
    rcases hmem with rfl | rfl
    · exact ⟨[Utf8.ofString "w", Utf8.ofString "a"], by decide, by decide, .inl ⟨_, rfl⟩⟩
    · exact ⟨[Utf8.ofString "w", Utf8.ofString "a-"], by decide, by decide, .inr ⟨_, rfl, .inl rfl⟩⟩
  have hapart : Candidate.TellsApart (c.letThrough (c.finds linkedTree [])) := tellsApart_linkedTree rfl rfl
  obtain ⟨-, -, hpicked⟩ := files_targets rfl hc hd hne ht
  exact ⟨rfl, hc, hd, hne, ht, hapart, hpicked hapart⟩

theorem resolve_alikeNames : alikeCollector.resolve [Utf8.replacement] =
    pathOf [Utf8.ofString "w", Utf8.encode [Utf8.replacement]] := by
  decide +kernel

theorem finds_alikeNames_target : alikeCollector.finds alikeNames [[Utf8.replacement]] =
    [.file (pathOf [Utf8.ofString "w", Utf8.encode [Utf8.replacement]])] := by
  have hholds : alikeNames.HoldsFile [Utf8.ofString "w", Utf8.encode [Utf8.replacement]] :=
    ⟨_, rfl, .inl rfl⟩
  rw [finds, if_neg (by simp), List.flatMap_singleton, lookUp, resolve_alikeNames, isFile_pathOf rfl hholds]
  rfl

/-- A target keeps the file that it names; in the collection of the whole tree the other file that is shown like
it has taken its place. -/
theorem files_targets_ne_alikeNames :
    let place := [Utf8.ofString "w", Utf8.encode [Utf8.replacement]]
    alikeNames.canonical alikeCollector.root = .ok alikeCollector.root ∧
      alikeNames.isDirectory alikeCollector.root = true ∧
      alikeCollector.resolve [Utf8.replacement] = pathOf place ∧
      alikeCollector.root.components <+: (pathOf place).components ∧ alikeNames.HoldsTarget place ∧
      (alikeCollector.collect alikeNames [[Utf8.replacement]]).files = [⟨pathOf place, [Utf8.replacement]⟩] ∧
      (alikeCollector.collect alikeNames []).files.filter
        (fun f => (pathOf place).components.isPrefixOf f.path.components) = [] := by
  refine ⟨canonical_pathOf rfl, isDirectory_pathOf rfl, resolve_alikeNames, by decide,
    .inr ⟨_, rfl, .inl rfl⟩, ?_, ?_⟩
  · rw [files_collect, finds_alikeNames_target]
    decide +kernel
  · rw [files_alikeNames]
    decide +kernel

end Collector
end Folio
