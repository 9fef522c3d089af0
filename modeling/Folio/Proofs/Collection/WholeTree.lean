import Folio.Proofs.Collection.Kept
import Folio.Proofs.Disk.Step
import Folio.Proofs.Path.Named
import Folio.Proofs.Walk.Order

/-!
# Collections of a whole tree

Without targets the tree below the root is walked. What the collection then holds can be said without
the walk: pruned directories hide nothing that the rules let through. Only of names that are shown alike, as
names that are no text may be, the last one is kept alone.
-/
namespace Folio

namespace Disk
variable {disk : Disk} {place below : Place}

/-- A file stands at the place, or a link that leads to a file. -/
def HoldsFile (disk : Disk) (place : Place) : Prop :=
  ∃ m, disk.top.at? place = some m ∧
    (m.kind = .file ∨ m.kind = .link ∧ disk.isFile (pathOf place) = true)

theorem HoldsFile.not_directory {es : List (Bytes × Node)} (h : disk.HoldsFile place) :
    disk.top.at? place ≠ some (.directory es) := by
  intro hd
  obtain ⟨m, hm, hk⟩ := h
  cases hm.symm.trans hd
  simp [Node.kind] at hk

theorem HoldsFile.ne_nil {es : List (Bytes × Node)} (h : disk.HoldsFile (place ++ below))
    (hes : disk.top.at? place = some (.directory es)) : below ≠ [] := by
  rintro rfl
  rw [List.append_nil] at h
  exact h.not_directory hes

theorem HoldsFile.isFileName (h : disk.HoldsFile place) :
    ∀ n ∈ place, IsFileName n := by
  obtain ⟨m, hm, -⟩ := h
  exact fun n hn => disk.sound.isFileName_of_mem hm hn

/-- What is below a directory is shown behind the directory. -/
theorem exists_stem (place : Place) : ∃ stem : Text, ∀ below : Place, below ≠ [] →
    (pathOf (place ++ below)).shown = stem ++ ['/'].intercalate (below.map Utf8.decodeLossy) := by
  by_cases hp : place = []
  · subst hp
    exact ⟨['/'], fun below _ => Path.shown_pathOf below⟩
  · refine ⟨'/' :: ['/'].intercalate (place.map Utf8.decodeLossy) ++ ['/'], fun below hb => ?_⟩
    rw [Path.shown_pathOf, List.map_append,
      Text.intercalate_append (by simpa using hp) (by simpa using hb)]
    simp

/-- Where below a directory a walk meets files. -/
def filesMet (disk : Disk) (prune : Place → Bool) (place : Place) (es : List (Bytes × Node)) : List Place :=
  (((Node.directory es).listing prune place).filter fun found =>
    disk.countsAsFile ⟨pathOf found.1, found.2⟩).map fun found => found.1.drop place.length

section
variable {prune : Place → Bool} {es : List (Bytes × Node)} (h : disk.top.at? place = some (.directory es))
include h

theorem mem_filesMet_iff : below ∈ disk.filesMet prune place es ↔
    disk.HoldsFile (place ++ below) ∧ (Node.directory es).IsOpen prune place below := by
  simp only [filesMet, List.mem_map, List.mem_filter, Node.mem_listing_iff (disk.sound.at h)]
  constructor
  · rintro ⟨_, ⟨⟨below, m, rfl, hm, ho⟩, hcounts⟩, rfl⟩
    rw [List.drop_left]
    refine ⟨⟨m, ?_, by simpa [countsAsFile] using hcounts⟩, ho⟩
    rw [Node.at?_append, h]
    exact hm
  · rintro ⟨⟨m, hm, hk⟩, ho⟩
    rw [Node.at?_append, h] at hm
    exact ⟨(place ++ below, m.kind), ⟨⟨below, m, rfl, hm, ho⟩, by simpa [countsAsFile] using hk⟩, List.drop_left⟩

theorem pairwise_filesMet : (disk.filesMet prune place es).Pairwise fun a b => a < b := by
  have hs := disk.sound.at h
  refine List.pairwise_map.2 (((Node.pairwise_before_listing hs).filter _).imp_of_mem fun ha hb hbefore => ?_)
  obtain ⟨a, ha⟩ := Node.prefix_of_mem_listing hs (List.mem_filter.1 ha).1
  obtain ⟨b, hb⟩ := Node.prefix_of_mem_listing hs (List.mem_filter.1 hb).1
  have hlt := hbefore.lt
  rw [← ha, ← hb, Text.append_lt_append_iff] at hlt
  rwa [← ha, ← hb, List.drop_left, List.drop_left]

end

end Disk

namespace Collector
open Disk
variable {disk : Disk} {place below : Place} {es : List (Bytes × Node)} {c : Collector}

def leavesOut (c : Collector) (place : Place) : Bool := c.rules.mayPrune (c.nameOf (pathOf place))

theorem nameOf_below (hroot : c.root = pathOf place) (hp : ∀ n ∈ place ++ below, IsFileName n)
    (hb : below ≠ []) :
    c.nameOf (pathOf (place ++ below)) = ['/'].intercalate (below.map Utf8.decodeLossy) := by
  have hname := Path.relativeTo_pathOf (fun n hn => hp n (List.mem_append_left below hn))
    fun n hn => hp n (List.mem_append_right place hn)
  rw [nameOf, hroot, hname, Path.nameBelow, if_neg hb]

theorem walked_pathOf (hlinks : c.followLinks = false) (h : disk.top.at? place = some (.directory es)) :
    c.walked disk (pathOf place) =
      (disk.filesMet c.leavesOut place es).map fun below => .file (pathOf (place ++ below)) := by
  rw [walked, hlinks, walk_pathOf h, filesMet, List.filterMap_map, List.map_map, ← List.filterMap_eq_filter,
    List.map_filterMap]
  apply List.filterMap_congr
  intro found hfound
  obtain ⟨below, hbelow⟩ := Node.prefix_of_mem_listing (disk.sound.at h) hfound
  cases disk.countsAsFile ⟨pathOf found.1, found.2⟩ <;>
    simp [foundAt, Option.guard, ← hbelow]

theorem mem_walked_iff {path : Path} (hlinks : c.followLinks = false)
    (h : disk.top.at? place = some (.directory es)) :
    .file path ∈ c.walked disk (pathOf place) ↔
      ∃ below, disk.HoldsFile (place ++ below) ∧ path = pathOf (place ++ below) ∧
        (Node.directory es).IsOpen c.leavesOut place below := by
  rw [walked_pathOf hlinks h, List.mem_map]
  simp only [mem_filesMet_iff h, Find.file.injEq]
  constructor
  · rintro ⟨below, ⟨hf, ho⟩, rfl⟩
    exact ⟨below, hf, rfl, ho⟩
  · rintro ⟨below, hf, rfl, ho⟩
    exact ⟨below, ⟨hf, ho⟩, rfl⟩

/-- A file that the rules let through is not behind a pruned directory. -/
theorem isOpen_of_not_excluded (hroot : c.root = pathOf place)
    (h : disk.top.at? place = some (.directory es)) (hf : disk.HoldsFile (place ++ below))
    (hx : (c.rules.verdict (c.nameOf (pathOf (place ++ below))) false).isExcluded = false) :
    (Node.directory es).IsOpen c.leavesOut place below := by
  intro front hfront hprefix inner hinner
  obtain ⟨rest, rfl⟩ := hprefix
  have hinner' : disk.top.at? (place ++ front) = some (.directory inner) := by
    rw [Node.at?_append, h]
    exact hinner
  have hrest : rest ≠ [] := by
    rw [← List.append_assoc] at hf
    exact hf.ne_nil hinner'
  have hnames : ∀ n ∈ place ++ front, IsFileName n := fun n hn => disk.sound.isFileName_of_mem hinner' hn
  have hne : ['/'].intercalate (front.map Utf8.decodeLossy) ≠ [] :=
    Path.intercalate_shown_ne_nil (fun n hn => hnames n (List.mem_append_right place hn)) hfront
  rw [leavesOut, nameOf_below hroot hnames hfront]
  rw [nameOf_below hroot hf.isFileName (by simp [hfront]), List.map_append,
    Text.intercalate_append (by simpa using hfront) (by simpa using hrest)] at hx
  cases hp : c.rules.mayPrune (['/'].intercalate (front.map Utf8.decodeLossy)) with
  | false => rfl
  | true =>
    have hbelow : (c.rules.verdict _ false).isExcluded = true :=
      Ruleset.isExcluded_below hp hne (['/'].intercalate (rest.map Utf8.decodeLossy))
    rw [hx] at hbelow
    cases hbelow

/-- What a collection keeps of the place `below` a root. -/
def candidateBelow (root below : Place) : Candidate :=
  ⟨pathOf (root ++ below), ['/'].intercalate (below.map Utf8.decodeLossy)⟩

/-- Below a root stands a file, or a link to one, and the rules let its name through. -/
def LetsThrough (disk : Disk) (rules : Ruleset) (root below : Place) : Prop :=
  below ≠ [] ∧ disk.HoldsFile (root ++ below) ∧
    (rules.verdict (candidateBelow root below).name false).isExcluded = false

theorem LetsThrough.eq {rules : Ruleset} {other : Place} (hb : LetsThrough disk rules place below)
    (ho : LetsThrough disk rules place other) (h : candidateBelow place below = candidateBelow place other) :
    below = other :=
  List.append_cancel_left
    (Path.pathOf_injective hb.2.1.isFileName ho.2.1.isFileName (congrArg Candidate.path h))

theorem shown_eq_iff_name_eq {other : Place} (hb : below ≠ []) (ho : other ≠ []) :
    (candidateBelow place below).path.shown = (candidateBelow place other).path.shown ↔
      (candidateBelow place below).name = (candidateBelow place other).name := by
  obtain ⟨stem, hstem⟩ := exists_stem place
  simp [candidateBelow, hstem below hb, hstem other ho]

theorem letThrough_files {belows : List Place}
    (hname : ∀ below ∈ belows, c.nameOf (pathOf (place ++ below)) = (candidateBelow place below).name) :
    c.letThrough (belows.map fun below => .file (pathOf (place ++ below))) =
      (belows.filter fun below =>
        !(c.rules.verdict (candidateBelow place below).name false).isExcluded).map (candidateBelow place) := by
  rw [letThrough, List.filterMap_map, ← List.filterMap_eq_filter, List.map_filterMap]
  refine List.filterMap_congr fun below hbelow => ?_
  simp only [Function.comp_apply, letThrough?, hname below hbelow, Option.guard]
  by_cases hx : (c.rules.verdict (candidateBelow place below).name false).isExcluded = true
  · simp [hx]
  · simp only [hx, Bool.false_eq_true, if_false]
    rfl

section
variable (hroot : c.root = pathOf place) (hlinks : c.followLinks = false)
  (h : disk.top.at? place = some (.directory es))
include hroot hlinks h

/-- What the rules let through of a whole tree is met in the order of the places. -/
theorem exists_letThrough_wholeTree : ∃ belows : List Place,
    belows.Pairwise (fun a b => a < b) ∧
      c.letThrough (c.finds disk []) = belows.map (candidateBelow place) ∧
      ∀ below, below ∈ belows ↔ LetsThrough disk c.rules place below := by
  have hname : ∀ below, disk.HoldsFile (place ++ below) →
      c.nameOf (pathOf (place ++ below)) = (candidateBelow place below).name :=
    fun below hf => nameOf_below hroot hf.isFileName (hf.ne_nil h)
  have hfinds : c.finds disk [] =
      (disk.filesMet c.leavesOut place es).map fun below => .file (pathOf (place ++ below)) := by
    rw [← walked_pathOf hlinks h, ← hroot]
    rfl
  refine ⟨(disk.filesMet c.leavesOut place es).filter fun below =>
    !(c.rules.verdict (candidateBelow place below).name false).isExcluded, (pairwise_filesMet h).filter _,
      ?_, fun below => ?_⟩
  · rw [hfinds]
    exact letThrough_files fun below hbelow => hname below ((mem_filesMet_iff h).1 hbelow).1
  · rw [List.mem_filter, mem_filesMet_iff h]
    constructor
    · rintro ⟨⟨hf, -⟩, hx⟩
      exact ⟨hf.ne_nil h, hf, by simpa using hx⟩
    · rintro ⟨-, hf, hx⟩
      exact ⟨⟨hf, isOpen_of_not_excluded hroot h hf (hname below hf ▸ hx)⟩, by simpa using hx⟩

theorem mem_letThrough_wholeTree_iff {f : Candidate} : f ∈ c.letThrough (c.finds disk []) ↔
    ∃ below, LetsThrough disk c.rules place below ∧ f = candidateBelow place below := by
  obtain ⟨belows, -, hlet, hmem⟩ := exists_letThrough_wholeTree hroot hlinks h
  simp only [hlet, List.mem_map, hmem, eq_comm]

/-- Where all names are texts no two files of a tree are shown alike. -/
theorem tellsApart_wholeTree (htext : ∀ below, disk.HoldsFile (place ++ below) → ∀ n ∈ below, Utf8.IsText n) :
    Candidate.TellsApart (c.letThrough (c.finds disk [])) := by
  intro f hf g hg hshown
  obtain ⟨below, hbelow, rfl⟩ := (mem_letThrough_wholeTree_iff hroot hlinks h).1 hf
  obtain ⟨other, hother, rfl⟩ := (mem_letThrough_wholeTree_iff hroot hlinks h).1 hg
  have hnames : below.map Utf8.decodeLossy = other.map Utf8.decodeLossy :=
    Path.map_decodeLossy_eq_of_intercalate_eq
      (fun n hn => hbelow.2.1.isFileName n (List.mem_append_right place hn))
      (fun n hn => hother.2.1.isFileName n (List.mem_append_right place hn))
      ((shown_eq_iff_name_eq hbelow.1 hother.1).1 hshown)
  rw [Utf8.eq_of_map_decodeLossy_eq (htext below hbelow.2.1) (htext other hother.2.1) hnames]

/-- The files of a whole tree are those below its root that the rules let through, of those with one name the
one at the last place. -/
theorem mem_files_wholeTree_iff {f : Candidate} : f ∈ (c.collect disk []).files ↔
    ∃ below, LetsThrough disk c.rules place below ∧ f = candidateBelow place below ∧
      ∀ other, disk.HoldsFile (place ++ other) → (candidateBelow place other).name = f.name →
        other ≤ below := by
  obtain ⟨belows, hpairwise, hlet, hmem⟩ := exists_letThrough_wholeTree hroot hlinks h
  rw [mem_files_iff, hlet, Candidate.isLast_map_iff hpairwise]
  simp only [hmem]
  refine exists_congr fun below => and_congr_right fun hbelow => and_congr_right fun hf => ?_
  subst hf
  constructor
  · intro hlast other hother hname
    have hne := hother.ne_nil h
    exact hlast other ⟨hne, hother, hname ▸ hbelow.2.2⟩ ((shown_eq_iff_name_eq hne hbelow.1).2 hname)
  · intro hlast other hother hshown
    exact hlast other hother.2.1 ((shown_eq_iff_name_eq hother.1 hbelow.1).1 hshown)

end

/-- A collection of a whole tree holds files in strictly ascending order of absolute paths and of names. They
stand below the root, reached through directories only, are files or links that lead to one, and are not
excluded by the rules; of all that has one name only what stands at the last place is held. So all of them are
held exactly if no two have one name. -/
theorem files_wholeTree {start root workingDirectory : Path} {rules : Ruleset}
    (hc : disk.canonical start = .ok root) (hd : disk.isDirectory root = true) :
    let files := (Collector.collect ⟨root, workingDirectory, rules, false⟩ disk []).files
    ∃ place es, root = pathOf place ∧ disk.top.at? place = some (.directory es) ∧
      (∀ f, f ∈ files ↔ ∃ below, LetsThrough disk rules place below ∧ f = candidateBelow place below ∧
        ∀ other, disk.HoldsFile (place ++ other) → (candidateBelow place other).name = f.name →
          other ≤ below) ∧
      files.Pairwise (fun a b => a.path.shown < b.path.shown ∧ a.name < b.name) ∧
      ((∀ f, f ∈ files ↔ ∃ below, LetsThrough disk rules place below ∧ f = candidateBelow place below) ↔
        ∀ below other, LetsThrough disk rules place below → LetsThrough disk rules place other →
          (candidateBelow place below).name = (candidateBelow place other).name → below = other) := by
  intro files
  obtain ⟨place, es, rfl, h⟩ := canonical_directory hc hd
  have hmem := fun f : Candidate =>
    mem_files_wholeTree_iff (c := ⟨pathOf place, workingDirectory, rules, false⟩) (f := f) rfl rfl h
  refine ⟨place, es, rfl, h, hmem, ?_, ?_⟩
  · apply pairwise_files.imp_of_mem
    intro a b ha hb hlt
    obtain ⟨x, hx, rfl, -⟩ := (hmem a).1 ha
    obtain ⟨y, hy, rfl, -⟩ := (hmem b).1 hb
    obtain ⟨stem, hstem⟩ := exists_stem place
    refine ⟨hlt, ?_⟩
    rwa [candidateBelow, candidateBelow, hstem x hx.1, hstem y hy.1, Text.append_lt_append_iff] at hlt
  · constructor
    · intro hall below other hbelow hother hname
      -- each of the two is at the last place of their name
      have hlast : ∀ below other, LetsThrough disk rules place below → LetsThrough disk rules place other →
          (candidateBelow place below).name = (candidateBelow place other).name → other ≤ below := by
        intro below other hbelow hother hname
        obtain ⟨below', hbelow', hf, hlast⟩ := (hmem _).1 ((hall _).2 ⟨below, hbelow, rfl⟩)
        exact hbelow.eq hbelow' hf ▸ hlast other hother.2.1 hname.symm
      exact Std.le_antisymm (hlast other below hother hbelow hname.symm) (hlast below other hbelow hother hname)
    · intro happart f
      rw [hmem]
      refine exists_congr fun below => and_congr_right fun hbelow => and_iff_left_of_imp fun hf => ?_
      subst hf
      intro other hother hname
      exact Std.le_of_eq (happart other below ⟨hother.ne_nil h, hother, hname ▸ hbelow.2.2⟩ hbelow hname)

/-- A directory `w` with a file, a link to that file and a directory with one more file. -/
def linkedTree : Disk where
  top := .directory [(Utf8.ofString "w", .directory [
    (Utf8.ofString "a", .directory [(Utf8.ofString "b", .file [] 0)]), (Utf8.ofString "a-", .file [] 0),
    (Utf8.ofString "l", .link (Utf8.ofString "a-"))])]
  current := []
  sound := by decide

theorem files_wholeTree_linkedTree :
    let root := pathOf [Utf8.ofString "w"]
    let rules := Ruleset.ofTexts ["/a/".toList]
    let files := (Collector.collect ⟨root, root, rules, false⟩ linkedTree []).files
    linkedTree.canonical root = .ok root ∧ linkedTree.isDirectory root = true ∧
      ∃ place es, root = pathOf place ∧ linkedTree.top.at? place = some (.directory es) ∧
        (∀ f, f ∈ files ↔ ∃ below, LetsThrough linkedTree rules place below ∧ f = candidateBelow place below ∧
          ∀ other, linkedTree.HoldsFile (place ++ other) → (candidateBelow place other).name = f.name →
            other ≤ below) ∧
        files.Pairwise fun a b => a.path.shown < b.path.shown ∧ a.name < b.name := by
  intro root rules files
  have hc : linkedTree.canonical root = .ok root := canonical_pathOf rfl
  have hd : linkedTree.isDirectory root = true := isDirectory_pathOf rfl
  obtain ⟨place, es, hroot, hes, hmem, hpairwise, -⟩ := files_wholeTree hc hd
  exact ⟨hc, hd, place, es, hroot, hes, hmem, hpairwise⟩

theorem at?_linkedTree : linkedTree.top.at? [Utf8.ofString "w"] = some (.directory [
    (Utf8.ofString "a", .directory [(Utf8.ofString "b", .file [] 0)]), (Utf8.ofString "a-", .file [] 0),
    (Utf8.ofString "l", .link (Utf8.ofString "a-"))]) :=
  rfl

theorem tellsApart_linkedTree (hroot : c.root = pathOf [Utf8.ofString "w"]) (hlinks : c.followLinks = false) :
    Candidate.TellsApart (c.letThrough (c.finds linkedTree [])) := by
  refine tellsApart_wholeTree hroot hlinks at?_linkedTree fun below hbelow n hn => ?_
  obtain ⟨m, hm, -⟩ := hbelow
  have htext : linkedTree.top.every (fun n => n.entries.all fun e => decide (Utf8.IsText e.1)) = true := by
    decide
  exact Node.of_mem_of_every htext hm (List.mem_append_right _ hn)

/-- A directory `w` with two files that are shown alike: one is named by the replacement, the name of the other
is no text. -/
def alikeNames : Disk where
  top := .directory [(Utf8.ofString "w", .directory [(Utf8.encode [Utf8.replacement], .file [] 0),
    ([0xFF], .file [] 0)])]
  current := []
  sound := by decide

def alikeCollector : Collector := ⟨pathOf [Utf8.ofString "w"], pathOf [Utf8.ofString "w"], ⟨[]⟩, false⟩

theorem finds_alikeNames : alikeCollector.finds alikeNames [] =
    [.file (pathOf [Utf8.ofString "w", Utf8.encode [Utf8.replacement]]),
      .file (pathOf [Utf8.ofString "w", [0xFF]])] := by
  have hat : alikeNames.top.at? [Utf8.ofString "w"] =
      some (.directory [(Utf8.encode [Utf8.replacement], .file [] 0), ([0xFF], .file [] 0)]) := rfl
  exact walked_pathOf (c := alikeCollector) rfl hat

theorem files_alikeNames : (alikeCollector.collect alikeNames []).files =
    [⟨pathOf [Utf8.ofString "w", [0xFF]], [Utf8.replacement]⟩] := by
  rw [files_collect, finds_alikeNames]
  decide +kernel

/-- Both files are let through, and only one of them is kept. -/
theorem files_wholeTree_ne_alikeNames :
    alikeNames.canonical alikeCollector.root = .ok alikeCollector.root ∧
      alikeNames.isDirectory alikeCollector.root = true ∧
      LetsThrough alikeNames alikeCollector.rules [Utf8.ofString "w"] [Utf8.encode [Utf8.replacement]] ∧
      LetsThrough alikeNames alikeCollector.rules [Utf8.ofString "w"] [[0xFF]] ∧
      (alikeCollector.collect alikeNames []).files =
        [⟨pathOf [Utf8.ofString "w", [0xFF]], [Utf8.replacement]⟩] := by
  refine ⟨canonical_pathOf rfl, isDirectory_pathOf rfl, ?_, ?_, files_alikeNames⟩
  · exact ⟨by simp, ⟨_, rfl, .inl rfl⟩, rfl⟩
  · exact ⟨by simp, ⟨_, rfl, .inl rfl⟩, rfl⟩

end Collector
end Folio
