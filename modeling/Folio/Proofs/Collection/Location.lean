import Folio.Proofs.Collection.Kept
import Folio.Proofs.Target.Within
import Folio.Proofs.Walk.Copies

/-!
# Collections of copies of a tree

What a collection keeps and ignores depends on where the tree stands in one way only. A search pattern is
looked for along the whole way to the working directory, and a name on this way may be one that cannot be
searched for, or no text and then searched for under another name. Two copies that do not differ in this give
the same names.
-/
namespace Folio
open Disk
open Folio.Path (slash)

namespace Index
variable {α β : Type}

def prepend (stem : Text) (f : α → β) (index : Index Text α) : Index Text β :=
  index.map fun e => (stem ++ e.1, f e.2)

theorem insert_prepend (stem key : Text) (f : α → β) (value : α) (index : Index Text α) :
    (index.prepend stem f).insert (stem ++ key) (f value) = (index.insert key value).prepend stem f := by
  unfold insert prepend
  induction index with
  | nil => rfl
  | cons e index ih =>
    obtain ⟨k, v⟩ := e
    rw [List.map_cons, alter, alter]
    simp only [Text.append_lt_append_iff, List.append_cancel_left_eq, ih]
    split
    · rfl
    · split <;> rfl

end Index

namespace Target
variable {disk disk₁ disk₂ : Disk} {loc loc₁ loc₂ sub : Place} {tree : Node} {es : List (Bytes × Node)}
  {target : Text}

/-- A search comes along the way to where it leads. -/
def IsOpenWay (loc : Place) : Prop := ∀ n ∈ loc, Utf8.IsText n ∧ IsSearchable n

/-- A search ends on the way. -/
def IsShutWay (loc : Place) : Prop := ∃ n ∈ loc, ¬ IsSearchable n

instance (loc : Place) : Decidable (IsOpenWay loc) :=
  inferInstanceAs (Decidable (∀ n ∈ loc, Utf8.IsText n ∧ IsSearchable n))

instance (loc : Place) : Decidable (IsShutWay loc) :=
  inferInstanceAs (Decidable (∃ n ∈ loc, ¬ IsSearchable n))

/-- A search along an open way goes on in the tree there, and along a shut way it finds nothing. -/
theorem onward_way (h : disk.Hosts loc tree) (needDirectory : Bool) (pieces : List Piece) :
    (IsOpenWay loc → onward disk needDirectory (loc.map escaped ++ pieces) (pathOf []) true =
      onward disk needDirectory pieces (pathOf loc) true) ∧
    (IsShutWay loc → onward disk needDirectory (loc.map escaped ++ pieces) (pathOf []) true = []) := by
  constructor
  · intro hopen
    obtain ⟨es, rfl⟩ := h.exists_entries
    have hat : disk.top.at? ([] ++ loc) = some (.directory es) := h.at?_eq
    exact onward_open hat (fun n hn => (hopen n hn).1) (fun n hn => (hopen n hn).2) pieces
  · rintro ⟨n, hn, hshut⟩
    exact onward_shut h.isFileName (fun hall => hshut (hall n hn)) pieces _ _

theorem twins_pathOf (h₁ : disk₁.Hosts loc₁ tree) (h₂ : disk₂.Hosts loc₂ tree) :
    Twins loc₁ loc₂ 0 (pathOf loc₁) (pathOf loc₂) := by
  have hpath : ∀ loc : Place, loc ≠ [] → pathOf loc = inside loc (tailOf []) := by
    intro loc hne
    rw [← pathOf_append [] hne, List.append_nil]
  exact ⟨tailOf [], isInside_tailOf (by simp), Nat.zero_le _, hpath loc₁ h₁.ne_nil, hpath loc₂ h₂.ne_nil⟩

/-- A pattern that keeps within a tree finds the same files in two copies of it, or it cannot be read for
either. -/
theorem rel_expand (h₁ : disk₁.Hosts loc₁ tree) (h₂ : disk₂.Hosts loc₂ tree)
    (hes : tree.at? sub = some (.directory es)) (ht : KeepsWithin sub target)
    (hway : IsOpenWay loc₁ ∧ IsOpenWay loc₂ ∨ IsShutWay loc₁ ∧ IsShutWay loc₂) :
    Option.Rel (List.Forall₂ (Alike disk₁ disk₂ loc₁ loc₂))
      (expand disk₁ (patternOf (pathOf (loc₁ ++ sub)) target)).toOption
      (expand disk₂ (patternOf (pathOf (loc₂ ++ sub)) target)).toOption := by
  have hat₁ : disk₁.top.at? (loc₁ ++ sub) = some (.directory es) := by rw [h₁.at?_append, hes]
  have hat₂ : disk₂.top.at? (loc₂ ++ sub) = some (.directory es) := by rw [h₂.at?_append, hes]
  rw [toOption_expand hat₁ (by simp [h₁.ne_nil]) ht.relative,
    toOption_expand hat₂ (by simp [h₂.ne_nil]) ht.relative]
  split
  · cases hp : (componentTexts target).mapM Glob.parse with
    | error fault => exact .none
    | ok pieces =>
      simp only [Except.toOption, Option.map_some, List.map_append, List.append_assoc]
      refine .some ?_
      have hnames := h₁.isFileName_of_at? hes
      have hkeeps : keeps 0 (sub.map escaped ++ collapse pieces) = true := by
        rw [keeps_escaped hnames, Nat.zero_add]
        exact ht.pattern pieces hp
      have hslash : ∀ piece ∈ sub.map escaped ++ collapse pieces, ∀ name,
          Glob.literalText? piece = some name → '/' ∉ name := by
        intro piece hpiece
        rcases List.mem_append.1 hpiece with hpiece | hpiece
        · obtain ⟨n, hn, rfl⟩ := List.mem_map.1 hpiece
          exact fun _ => slash_notMem_escaped (hnames n hn)
        · exact slash_notMem_literal hp piece hpiece
      have hway₁ := onward_way h₁ (needsDirectory target) (sub.map escaped ++ collapse pieces)
      have hway₂ := onward_way h₂ (needsDirectory target) (sub.map escaped ++ collapse pieces)
      rcases hway with ⟨hopen₁, hopen₂⟩ | ⟨hshut₁, hshut₂⟩
      · rw [hway₁.1 hopen₁, hway₂.1 hopen₂]
        exact forall₂_onward h₁ h₂ hkeeps hslash (twins_pathOf h₁ h₂) true
      · rw [hway₁.2 hshut₁, hway₂.2 hshut₂]
        exact .nil
  · exact .none

end Target

/-- The same turns up in two copies of a tree: a file at one place of the tree, or something to report. -/
inductive SameFind (loc₁ loc₂ : Place) : Find → Find → Prop
  | file (below : Place) (hb : ∀ n ∈ below, IsFileName n) :
    SameFind loc₁ loc₂ (.file (pathOf (loc₁ ++ below))) (.file (pathOf (loc₂ ++ below)))
  | report (event₁ event₂ : Event) : SameFind loc₁ loc₂ (.report event₁) (.report event₂)

def Candidate.placed (loc below : Place) : Candidate := ⟨pathOf (loc ++ below), Path.nameBelow below⟩

/-- Two collections of copies of a tree agree, except for the way to the tree in absolute paths. -/
structure SameOutcome (loc₁ loc₂ : Place) (s₁ s₂ : Collection) : Prop where
  kept : ∃ index : Index Text Place,
    s₁.kept = index.prepend (pathOf loc₁).shown (Candidate.placed loc₁) ∧
      s₂.kept = index.prepend (pathOf loc₂).shown (Candidate.placed loc₂)
  ignored : s₁.ignored = s₂.ignored
  discovered : s₁.discovered = s₂.discovered

theorem shown_pathOf_append {loc : Place} (below : Place) (hloc : loc ≠ []) :
    (pathOf (loc ++ below)).shown = (pathOf loc).shown ++ Utf8.decodeLossy (tailOf below) := by
  rw [pathOf_append below hloc, inside, Path.shown, Path.shown]
  cases below with
  | nil => simp [tailOf, Utf8.decodeLossy, Utf8.scan]
  | cons name below =>
    have hslash : ∀ front more, Utf8.decodeLossy (front ++ slash :: more) =
        Utf8.decodeLossy front ++ '/' :: Utf8.decodeLossy more :=
      Utf8.decodeLossy_append (b := slash) (by decide)
    have hfirst := hslash [] (name ++ tailOf below)
    rw [List.nil_append] at hfirst
    have htail : tailOf (name :: below) = slash :: (name ++ tailOf below) := rfl
    rw [htail, hslash, hfirst]
    rfl

namespace Collector
variable {disk disk₁ disk₂ : Disk} {loc loc₁ loc₂ sub here : Place} {tree : Node} {es : List (Bytes × Node)}
  {rules : Ruleset} {followLinks : Bool} {target : Text} {targets : List Text}

/-- The collector for a tree that stands at a place, with a directory of the tree as working directory. -/
def placed (loc sub : Place) (rules : Ruleset) (followLinks : Bool) : Collector :=
  ⟨pathOf loc, pathOf (loc ++ sub), rules, followLinks⟩

theorem nameOf_placed (h : disk.Hosts loc tree) {below : Place} (hb : ∀ n ∈ below, IsFileName n) :
    (placed loc sub rules followLinks).nameOf (pathOf (loc ++ below)) = Path.nameBelow below :=
  Path.relativeTo_pathOf h.isFileName hb

section
variable (h₁ : disk₁.Hosts loc₁ tree) (h₂ : disk₂.Hosts loc₂ tree)
include h₁ h₂

theorem sameOutcome_take {s₁ s₂ : Collection} {find₁ find₂ : Find} (hs : SameOutcome loc₁ loc₂ s₁ s₂)
    (hf : SameFind loc₁ loc₂ find₁ find₂) :
    SameOutcome loc₁ loc₂ ((placed loc₁ sub rules followLinks).take s₁ find₁)
      ((placed loc₂ sub rules followLinks).take s₂ find₂) := by
  cases hf with
  | report event₁ event₂ => exact ⟨hs.kept, hs.ignored, hs.discovered⟩
  | file below hb =>
    obtain ⟨index, hk₁, hk₂⟩ := hs.kept
    -- the path of the file goes on from the path of the root by the same text in both copies
    have hinsert : ∀ loc : Place, loc ≠ [] →
        (index.prepend (pathOf loc).shown (Candidate.placed loc)).insert (pathOf (loc ++ below)).shown
            ⟨pathOf (loc ++ below), Path.nameBelow below⟩ =
          (index.insert (Utf8.decodeLossy (tailOf below)) below).prepend (pathOf loc).shown
            (Candidate.placed loc) := by
      intro loc hne
      rw [shown_pathOf_append below hne]
      exact Index.insert_prepend _ _ (Candidate.placed loc) below index
    rw [take, take, nameOf_placed h₁ hb, nameOf_placed h₂ hb, hk₁, hk₂, hinsert loc₁ h₁.ne_nil,
      hinsert loc₂ h₂.ne_nil, hs.discovered, hs.ignored]
    dsimp only [placed]
    split
    · exact ⟨⟨index, rfl, rfl⟩, rfl, rfl⟩
    · exact ⟨⟨_, rfl, rfl⟩, rfl, rfl⟩

theorem sameOutcome_foldl {finds₁ finds₂ : List Find} {s₁ s₂ : Collection}
    (hf : List.Forall₂ (SameFind loc₁ loc₂) finds₁ finds₂) (hs : SameOutcome loc₁ loc₂ s₁ s₂) :
    SameOutcome loc₁ loc₂ (finds₁.foldl (placed loc₁ sub rules followLinks).take s₁)
      (finds₂.foldl (placed loc₂ sub rules followLinks).take s₂) := by
  induction hf generalizing s₁ s₂ with
  | nil => exact hs
  | cons hfind _ ih => exact ih (sameOutcome_take h₁ h₂ hs hfind)

end

section
variable (h : disk.Hosts loc tree)
include h

theorem walked_placed (hes : tree.at? here = some (.directory es)) :
    (placed loc sub rules followLinks).walked disk (pathOf (loc ++ here)) =
      (((Node.directory es).listing (fun place => rules.mayPrune (Path.nameBelow place)) here).filter
        (·.2 = .file)).map fun found => .file (pathOf (loc ++ found.1)) := by
  have hs : tree.Sound := h.sound
  have hprune : ∀ place, (∀ m ∈ place, IsFileName m) →
      (placed loc sub rules followLinks).rules.mayPrune
        ((placed loc sub rules followLinks).nameOf (pathOf (loc ++ place))) =
          rules.mayPrune (Path.nameBelow place) := by
    intro place hp
    rw [nameOf_placed h hp]
    rfl
  rw [walked, h.walk_eq hes _ hprune, List.filterMap_map, ← List.filterMap_eq_filter, List.map_filterMap]
  apply List.filterMap_congr
  intro found hfound
  obtain ⟨below, m, rfl, hm, -⟩ := (Node.mem_listing_iff (hs.at hes)).1 hfound
  cases m with
  | link target => exact absurd hm ((h.linkFree.at hes) below target)
  | file content modified => rfl
  | directory inner => rfl

theorem find_below (hb : ∀ n ∈ here, IsPiece n) (last : Bool) :
    disk.find last (pathOf (loc ++ here)) =
      (fun found => (loc ++ found.1, found.2)) <$> locate tree (tailOf here) := by
  rw [pathOf_append here h.ne_nil]
  exact h.find_inside (isInside_tailOf hb)

/-- The place in the tree that a target spells. -/
theorem resolve_placed (rules : Ruleset) (followLinks : Bool) (hes : tree.at? sub = some (.directory es))
    (ht : Target.KeepsWithin sub target) :
    (placed loc sub rules followLinks).resolve target =
      pathOf (loc ++ (steps (Utf8.encode target)).foldl Step.after sub) := by
  have hsub : ∀ n ∈ sub, IsPiece n := fun n hn => (h.isFileName_of_at? hes n hn).isPiece
  obtain ⟨t, hjoin, hplace, hstays⟩ := exists_joinTail_eq (tailOf sub) (Utf8.encode target)
  rw [placeIn_tailOf hsub] at hplace
  have hinside : IsInside (joinTail (tailOf sub) (Utf8.encode target)) := by
    refine ⟨(isFresh_tailOf sub).joinTail (Utf8.encode target), ?_⟩
    rw [hjoin, stepsIn_append, staysIn_append, ← placeIn, hplace]
    exact ⟨hstays.2 (isInside_tailOf hsub).stays, ht.path⟩
  have hspelled : placeIn (joinTail (tailOf sub) (Utf8.encode target)) =
      (steps (Utf8.encode target)).foldl Step.after sub := by
    rw [hjoin, placeIn, stepsIn_append, List.foldl_append, ← placeIn, hplace]
  have hrelative : (Utf8.encode target).head? ≠ some slash :=
    mt (Utf8.head?_of_head?_encode (b := slash) (by decide)) ht.relative
  rw [resolve, placed, pathOf_append sub h.ne_nil, h.join_inside hrelative, h.clean_inside hinside, hspelled]

theorem isPiece_of_mem_after (hes : tree.at? sub = some (.directory es)) :
    ∀ n ∈ (steps (Utf8.encode target)).foldl Step.after sub, IsPiece n := by
  intro n hn
  rcases mem_foldl_after hn with hn | hn
  · exact (h.isFileName_of_at? hes n hn).isPiece
  · exact isPiece_of_mem_steps hn

/-- What turns up for a target: itself if it is a file, else what is below it if it is a directory, else what
it finds as a search pattern. -/
theorem lookUp_placed {c : Collector} (hc : c.resolve target = pathOf (loc ++ here))
    (hp : ∀ n ∈ here, IsPiece n) : c.lookUp disk target =
      match locate tree (tailOf here) with
      | .ok (_, .file ..) => [.file (pathOf (loc ++ here))]
      | .ok (_, .directory _) => c.walked disk (pathOf (loc ++ here))
      | _ => c.searched disk target := by
  rw [lookUp, hc, isFile, isDirectory, find_below h hp]
  cases locate tree (tailOf here) with
  | error fault => rfl
  | ok found =>
    obtain ⟨place, n⟩ := found
    cases n <;> rfl

end

section
variable (h₁ : disk₁.Hosts loc₁ tree) (h₂ : disk₂.Hosts loc₂ tree)
include h₁ h₂

theorem forall₂_files {paths₁ paths₂ : List Path}
    (h : List.Forall₂ (Target.Alike disk₁ disk₂ loc₁ loc₂) paths₁ paths₂) :
    List.Forall₂ (SameFind loc₁ loc₂) ((paths₁.filter disk₁.isFile).map fun p => .file p.clean)
      ((paths₂.filter disk₂.isFile).map fun p => .file p.clean) := by
  induction h with
  | nil => exact .nil
  | @cons p q paths₁ paths₂ hpq _ ih =>
    obtain ⟨hfile, htwins⟩ := hpq
    rw [List.filter_cons, List.filter_cons, ← hfile]
    split
    next hf =>
      obtain ⟨rest, hr, -, rfl, rfl⟩ := htwins hf
      rw [List.map_cons, List.map_cons, h₁.clean_inside hr, h₂.clean_inside hr]
      refine .cons (.file (placeIn rest) ?_) ih
      rw [isFile, h₁.find_inside hr] at hf
      cases hl : locate tree rest with
      | error fault =>
        rw [hl] at hf
        cases hf
      | ok found =>
        obtain ⟨hplace, hat⟩ := locate_eq_ok hl
        exact hplace ▸ h₁.isFileName_of_at? hat
    next => exact ih

theorem forall₂_searched (hes : tree.at? sub = some (.directory es)) (ht : Target.KeepsWithin sub target)
    (hway : Target.IsOpenWay loc₁ ∧ Target.IsOpenWay loc₂ ∨ Target.IsShutWay loc₁ ∧ Target.IsShutWay loc₂) :
    List.Forall₂ (SameFind loc₁ loc₂) ((placed loc₁ sub rules followLinks).searched disk₁ target)
      ((placed loc₂ sub rules followLinks).searched disk₂ target) := by
  have hrel := Target.rel_expand h₁ h₂ hes ht hway
  rw [searched, searched, placed, placed]
  dsimp only
  cases hx₁ : Target.expand disk₁ (Target.patternOf (pathOf (loc₁ ++ sub)) target) with
  | error fault₁ =>
    cases hx₂ : Target.expand disk₂ (Target.patternOf (pathOf (loc₂ ++ sub)) target) with
    | error fault₂ => exact .cons (.report _ _) .nil
    | ok paths₂ =>
      rw [hx₁, hx₂] at hrel
      cases hrel
  | ok paths₁ =>
    cases hx₂ : Target.expand disk₂ (Target.patternOf (pathOf (loc₂ ++ sub)) target) with
    | error fault₂ =>
      rw [hx₁, hx₂] at hrel
      cases hrel
    | ok paths₂ =>
      rw [hx₁, hx₂] at hrel
      cases hrel with
      | some h => exact forall₂_files h₁ h₂ h

theorem forall₂_walked (hes : tree.at? here = some (.directory es)) :
    List.Forall₂ (SameFind loc₁ loc₂)
      ((placed loc₁ sub rules followLinks).walked disk₁ (pathOf (loc₁ ++ here)))
      ((placed loc₂ sub rules followLinks).walked disk₂ (pathOf (loc₂ ++ here))) := by
  have hs : tree.Sound := h₁.sound
  rw [walked_placed h₁ hes, walked_placed h₂ hes, List.forall₂_map_left_iff, List.forall₂_map_right_iff,
    List.forall₂_same]
  intro found hfound
  obtain ⟨below, m, rfl, hm, -⟩ := (Node.mem_listing_iff (hs.at hes)).1 (List.mem_filter.1 hfound).1
  refine .file (here ++ below) (h₁.isFileName_of_at? (n := m) ?_)
  rw [Node.at?_append, hes]
  exact hm

theorem forall₂_lookUp (hes : tree.at? sub = some (.directory es)) (ht : Target.KeepsWithin sub target)
    (hway : disk₁.exists? ((placed loc₁ sub rules followLinks).resolve target) = false →
      Target.IsOpenWay loc₁ ∧ Target.IsOpenWay loc₂ ∨ Target.IsShutWay loc₁ ∧ Target.IsShutWay loc₂) :
    List.Forall₂ (SameFind loc₁ loc₂) ((placed loc₁ sub rules followLinks).lookUp disk₁ target)
      ((placed loc₂ sub rules followLinks).lookUp disk₂ target) := by
  have hp : ∀ n ∈ (steps (Utf8.encode target)).foldl Step.after sub, IsPiece n := isPiece_of_mem_after h₁ hes
  have hc₁ := resolve_placed h₁ rules followLinks hes ht
  have hc₂ := resolve_placed h₂ rules followLinks hes ht
  rw [lookUp_placed h₁ hc₁ hp, lookUp_placed h₂ hc₂ hp]
  rw [hc₁, exists?, find_below h₁ hp] at hway
  -- what the target names is told by the tree, and it is a search pattern if it names nothing
  cases hl : locate tree (tailOf ((steps (Utf8.encode target)).foldl Step.after sub)) with
  | error fault =>
    rw [hl] at hway
    exact forall₂_searched h₁ h₂ hes ht (hway rfl)
  | ok found =>
    obtain ⟨place, n⟩ := found
    obtain ⟨rfl, hat⟩ := locate_eq_ok hl
    rw [placeIn_tailOf hp] at hat
    cases n with
    | file content modified => exact .cons (.file _ (h₁.isFileName_of_at? hat)) .nil
    | directory inner => exact forall₂_walked h₁ h₂ hat
    | link target' => exact absurd hat (h₁.linkFree _ _)

theorem forall₂_finds (hes : tree.at? sub = some (.directory es))
    (ht : ∀ t ∈ targets, Target.KeepsWithin sub t)
    (hway : ∀ t ∈ targets, disk₁.exists? ((placed loc₁ sub rules followLinks).resolve t) = false →
      Target.IsOpenWay loc₁ ∧ Target.IsOpenWay loc₂ ∨ Target.IsShutWay loc₁ ∧ Target.IsShutWay loc₂) :
    List.Forall₂ (SameFind loc₁ loc₂) ((placed loc₁ sub rules followLinks).finds disk₁ targets)
      ((placed loc₂ sub rules followLinks).finds disk₂ targets) := by
  rw [finds, finds]
  split
  · obtain ⟨top, rfl⟩ := h₁.exists_entries
    have hwalked : List.Forall₂ (SameFind loc₁ loc₂)
        ((placed loc₁ sub rules followLinks).walked disk₁ (pathOf (loc₁ ++ [])))
        ((placed loc₂ sub rules followLinks).walked disk₂ (pathOf (loc₂ ++ []))) := forall₂_walked h₁ h₂ rfl
    rwa [List.append_nil, List.append_nil] at hwalked
  · exact Target.forall₂_flatMap fun t hmem => forall₂_lookUp h₁ h₂ hes (ht t hmem) (hway t hmem)

/-- Two copies of a tree without links, each with its root at the top and the same directory as working
directory, give the same: the same names in the same order are kept, and the same are ignored with the same
rules. Only where a target is a search pattern, the ways to the two copies must both be open to a search or
both shut. -/
theorem collect_copies (hes : tree.at? sub = some (.directory es)) (rules : Ruleset) (followLinks : Bool)
    (ht : ∀ t ∈ targets, Target.KeepsWithin sub t)
    (hway : ∀ t ∈ targets, disk₁.exists? ((placed loc₁ sub rules followLinks).resolve t) = false →
      Target.IsOpenWay loc₁ ∧ Target.IsOpenWay loc₂ ∨ Target.IsShutWay loc₁ ∧ Target.IsShutWay loc₂) :
    let first := (placed loc₁ sub rules followLinks).collect disk₁ targets
    let second := (placed loc₂ sub rules followLinks).collect disk₂ targets
    first.files.map (·.name) = second.files.map (·.name) ∧ first.ignored = second.ignored ∧
      first.discovered = second.discovered := by
  intro first second
  have hsame : SameOutcome loc₁ loc₂ first second :=
    sameOutcome_foldl h₁ h₂ (forall₂_finds h₁ h₂ hes ht hway) ⟨⟨[], rfl, rfl⟩, rfl, rfl⟩
  obtain ⟨index, hk₁, hk₂⟩ := hsame.kept
  refine ⟨?_, hsame.ignored, hsame.discovered⟩
  rw [Collection.files, Collection.files, hk₁, hk₂]
  simp only [Index.prepend, List.map_map, Function.comp_def, Candidate.placed]

end

theorem file_notMem_searched (h : disk.Hosts loc tree) (hes : tree.at? sub = some (.directory es))
    (ht : target.head? ≠ some '/') (hway : Target.IsShutWay loc) (path : Path) :
    .file path ∉ (placed loc sub rules followLinks).searched disk target := by
  have hexpand := Target.toOption_expand (h.at?_append.trans hes) (by simp [h.ne_nil]) ht
  simp only [List.map_append, List.append_assoc, (Target.onward_way h _ _).2 hway] at hexpand
  intro hm
  obtain ⟨paths, hpaths, q, hq, -⟩ := mem_searched_iff.1 hm
  have hpattern : Target.patternOf (placed loc sub rules followLinks).workingDirectory target =
      Target.patternOf (pathOf (loc ++ sub)) target := rfl
  rw [hpattern] at hpaths
  rw [hpaths] at hexpand
  split at hexpand
  · cases hp : (Target.componentTexts target).mapM Glob.parse with
    | error fault =>
      rw [hp] at hexpand
      cases hexpand
    | ok pieces =>
      rw [hp] at hexpand
      cases Option.some.inj hexpand
      cases hq
  · cases hexpand

def hostedTree : Node :=
  .directory
    [(Utf8.ofString "lib", .directory [(Utf8.ofString "x.rs", .file [] 0)]),
      (Utf8.ofString "x.rs", .file [] 0)]

/-- Three copies of one tree. The first one stands in a hidden directory with marks in its name. -/
def threeCopies : Disk where
  top := .directory
    [(Utf8.ofString ".a[1]", hostedTree), (Utf8.ofString "b", hostedTree), (Utf8.ofString "c*", hostedTree)]
  current := []
  sound := by decide

theorem hosts_threeCopies {name : Bytes} (h : threeCopies.top.at? [name] = some hostedTree) :
    threeCopies.Hosts [name] hostedTree :=
  ⟨h, rfl, Node.linkFree_of_every (by decide), List.cons_ne_nil name []⟩

theorem keepsWithin_above : Target.KeepsWithin [Utf8.ofString "lib"] "../x.rs".toList := by
  have hpieces : (Target.componentTexts "../x.rs".toList).mapM Glob.parse =
      .ok ["..".toList.map fun c => .single (.literal c),
        "x.rs".toList.map fun c => .single (.literal c)] := by
    have htexts : Target.componentTexts "../x.rs".toList = ["..".toList, "x.rs".toList] := by decide
    rw [htexts]
    simp [Glob.parse, Glob.parseFrom]
    rfl
  refine ⟨by decide, by decide, fun pieces hp => ?_⟩
  cases hpieces.symm.trans hp
  decide

theorem collect_copies_threeCopies :
    let loc₁ : Place := [Utf8.ofString "b"]
    let loc₂ : Place := [Utf8.ofString "c*"]
    let sub : Place := [Utf8.ofString "lib"]
    let rules := Ruleset.ofTexts ["/lib/".toList]
    let targets : List Text := ["*.rs".toList, "../x.rs".toList]
    let first := (placed loc₁ sub rules true).collect threeCopies targets
    let second := (placed loc₂ sub rules true).collect threeCopies targets
    threeCopies.Hosts loc₁ hostedTree ∧ threeCopies.Hosts loc₂ hostedTree ∧
      (∃ es, hostedTree.at? sub = some (.directory es)) ∧
      (∀ t ∈ targets, Target.KeepsWithin sub t) ∧
      (∀ t ∈ targets, threeCopies.exists? ((placed loc₁ sub rules true).resolve t) = false →
        Target.IsOpenWay loc₁ ∧ Target.IsOpenWay loc₂ ∨ Target.IsShutWay loc₁ ∧ Target.IsShutWay loc₂) ∧
      first.files.map (·.name) = second.files.map (·.name) ∧ first.ignored = second.ignored ∧
      first.discovered = second.discovered := by
  intro loc₁ loc₂ sub rules targets first second
  have h₁ : threeCopies.Hosts loc₁ hostedTree := hosts_threeCopies rfl
  have h₂ : threeCopies.Hosts loc₂ hostedTree := hosts_threeCopies rfl
  have ht : ∀ t ∈ targets, Target.KeepsWithin sub t := by
    intro t hmem
    simp only [targets, List.mem_cons, List.not_mem_nil, or_false] at hmem
    rcases hmem with rfl | rfl
    · exact Target.keepsWithin_component (by decide) (by decide)
    · exact keepsWithin_above
  have hway : ∀ t ∈ targets, threeCopies.exists? ((placed loc₁ sub rules true).resolve t) = false →
      Target.IsOpenWay loc₁ ∧ Target.IsOpenWay loc₂ ∨ Target.IsShutWay loc₁ ∧ Target.IsShutWay loc₂ :=
    fun _ _ _ => by decide
  exact ⟨h₁, h₂, ⟨_, rfl⟩, ht, hway, collect_copies h₁ h₂ rfl rules true ht hway⟩

theorem isFile_threeCopies : threeCopies.isFile (pathOf [Utf8.ofString "b", Utf8.ofString "x.rs"]) = true := by
  rw [isFile, find_pathOf rfl (by simp) (by simp)]

theorem expand_threeCopies :
    Target.expand threeCopies (Target.patternOf (pathOf [Utf8.ofString "b"]) "*.rs".toList) =
      .ok [pathOf [Utf8.ofString "b", Utf8.ofString "x.rs"]] := by
  have h : threeCopies.Hosts [Utf8.ofString "b"] hostedTree := hosts_threeCopies rfl
  have hparse : Glob.parse "*.rs".toList =
      .ok [.star, .single (.literal '.'), .single (.literal 'r'), .single (.literal 's')] := by
    simp [Glob.parse, Glob.parseFrom]
  have htexts : Target.componentTexts "*.rs".toList = ["*.rs".toList] := by decide
  have hfind : threeCopies.find true (pathOf [Utf8.ofString "b"]) = .ok ([Utf8.ofString "b"] ++ [], hostedTree) :=
    find_pathOf h.at?_eq (by simp) (by simp [hostedTree])
  have hrelative : "*.rs".toList.head? ≠ some '/' := by decide
  have hexpand := Target.toOption_expand h.at?_eq h.ne_nil hrelative
  apply toOption_eq_some_iff.1
  rw [hexpand, htexts, List.mapM_cons, hparse, List.mapM_nil]
  have hsearch := Target.search_cons threeCopies false
    [.star, .single (.literal '.'), .single (.literal 'r'), .single (.literal 's')] []
    (pathOf [Utf8.ofString "b"]) true
  rw [Target.children_eq h hfind rfl] at hsearch
  have hway := (Target.onward_way h false
    [[.star, .single (.literal '.'), .single (.literal 'r'), .single (.literal 's')]]).1 (by decide)
  exact congrArg some (hway.trans hsearch)

/-- Below a hidden directory with marks in its name a pattern finds nothing, elsewhere it finds a file. -/
theorem collect_copies_ne_hidden :
    let loc₁ : Place := [Utf8.ofString ".a[1]"]
    let loc₂ : Place := [Utf8.ofString "b"]
    let targets : List Text := ["*.rs".toList]
    threeCopies.Hosts loc₁ hostedTree ∧ threeCopies.Hosts loc₂ hostedTree ∧
      (∀ t ∈ targets, Target.KeepsWithin [] t) ∧
      ((placed loc₁ [] ⟨[]⟩ false).collect threeCopies targets).files = [] ∧
      ((placed loc₂ [] ⟨[]⟩ false).collect threeCopies targets).files =
        [⟨pathOf [Utf8.ofString "b", Utf8.ofString "x.rs"], "x.rs".toList⟩] := by
  intro loc₁ loc₂ targets
  have h₁ : threeCopies.Hosts loc₁ hostedTree := hosts_threeCopies rfl
  have h₂ : threeCopies.Hosts loc₂ hostedTree := hosts_threeCopies rfl
  have ht : Target.KeepsWithin [] "*.rs".toList := Target.keepsWithin_component (by decide) (by decide)
  have hsearched : ∀ loc : Place, threeCopies.Hosts loc hostedTree →
      (placed loc [] ⟨[]⟩ false).finds threeCopies targets =
        (placed loc [] ⟨[]⟩ false).searched threeCopies "*.rs".toList := by
    intro loc h
    have hc := resolve_placed h ⟨[]⟩ false rfl ht
    have hlookUp := lookUp_placed h hc (isPiece_of_mem_after h rfl)
    rw [finds, if_neg (by simp [targets]), List.flatMap_singleton, hlookUp]
    rfl
  refine ⟨h₁, h₂, by simpa [targets] using ht, ?_, ?_⟩
  · rw [List.eq_nil_iff_forall_not_mem]
    intro f hf
    have hfile := (mem_letThrough_of_mem_files hf).1
    rw [hsearched loc₁ h₁] at hfile
    have hway : Target.IsShutWay loc₁ := by decide
    exact file_notMem_searched h₁ rfl (by decide) hway f.path hfile
  · have hfinds : (placed loc₂ [] ⟨[]⟩ false).searched threeCopies "*.rs".toList =
        [.file (pathOf [Utf8.ofString "b", Utf8.ofString "x.rs"])] := by
      rw [searched, placed, List.append_nil, expand_threeCopies]
      simp only [List.filter_cons, isFile_threeCopies]
      rfl
    rw [files_collect, hsearched loc₂ h₂, hfinds]
    decide +kernel

end Collector
end Folio
