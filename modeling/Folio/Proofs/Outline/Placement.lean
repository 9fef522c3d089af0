import Folio.Outline
import Mathlib.Data.List.Sort

/-!
# Where an outline puts names

Each name stands in the directory that its segments but the last spell, behind the names that came there
before it. Putting a name in changes nothing off the way to its directory, and an outline holds nothing
but what its directories show.
-/
namespace Folio

namespace Index
variable {α : Type} {index others : Index Text α}

theorem eq_of_find? (h : index.Ascending) (ho : others.Ascending)
    (heq : ∀ k, find? k index = find? k others) : index = others := by
  have hasymm : Std.Antisymm fun a b : Text × α => a.1 < b.1 :=
    ⟨fun _ _ hab hba => absurd hba (List.lt_asymm hab)⟩
  have hirrefl : Std.Irrefl fun a b : Text × α => a.1 < b.1 := ⟨fun a => List.lt_irrefl a.1⟩
  apply List.Pairwise.eq_of_mem_iff h ho
  rintro ⟨k, v⟩
  rw [mem_iff_find? h, mem_iff_find? ho, heq]

end Index

namespace Outline

@[elab_as_elim]
theorem inductionOn {P : Outline → Prop} (o : Outline)
    (node : ∀ fs ds, (∀ e ∈ ds, P e.2) → P (.node fs ds)) : P o :=
  @Outline.rec P (fun ds => ∀ e ∈ ds, P e.2) (fun e => P e.2) node
    (fun _ h => absurd h List.not_mem_nil)
    (fun _ _ hh ht e he => (List.mem_cons.1 he).elim (fun h => h ▸ hh) (ht e)) (fun _ _ h => h) o

/-- The directory that a name belongs in. A name without segments belongs nowhere. -/
def directory? (name : Text) : Option (List Text) :=
  if segments name = [] then none else some (segments name).dropLast

def at? : List Text → Outline → Option Outline
  | [], o => some o
  | d :: rest, o => (Index.find? d o.directories).bind (at? rest)

/-- Every file stands in its directory, and the directories in an outline stand in order and are not
empty. The outline itself is what `way` leads to. -/
inductive IsPlaced : List Text → Outline → Prop
  | node {way : List Text} {fs : List Text} {ds : Index Text Outline}
      (files : ∀ f ∈ fs, directory? f = some way) (ascending : ds.Ascending)
      (full : ∀ e ∈ ds, e.2 ≠ empty) (below : ∀ e ∈ ds, IsPlaced (way ++ [e.1]) e.2) :
      IsPlaced way (.node fs ds)

variable {o p : Outline} {way dir : List Text} {name d : Text} {names others : List Text}

theorem at?_empty (way : List Text) : empty.at? way = if way = [] then some empty else none := by
  cases way <;> rfl

theorem isPlaced_empty (way : List Text) : IsPlaced way empty :=
  .node (by simp) List.Pairwise.nil (by simp) (by simp)

theorem IsPlaced.ascending (h : IsPlaced way o) : o.directories.Ascending := by
  cases h with
  | node _ ascending _ _ => exact ascending

theorem IsPlaced.of_find? (h : IsPlaced way o) (hf : Index.find? d o.directories = some p) :
    IsPlaced (way ++ [d]) p := by
  cases h with
  | node _ ascending _ below => exact below (d, p) ((Index.mem_iff_find? ascending).2 hf)

theorem IsPlaced.getD_find? (h : IsPlaced way o) (d : Text) :
    IsPlaced (way ++ [d]) ((Index.find? d o.directories).getD empty) := by
  cases hf : Index.find? d o.directories with
  | none => exact isPlaced_empty _
  | some p => exact h.of_find? hf

theorem insertAt_ne_empty (name : Text) (dir : List Text) (o : Outline) :
    insertAt name dir o ≠ empty := by
  obtain ⟨fs, ds⟩ := o
  cases dir with
  | nil => simp [insertAt, empty]
  | cons d rest =>
    rw [insertAt, empty, ne_eq, node.injEq, not_and]
    intro _
    cases ds with
    | nil => simp [Index.alter]
    | cons e ds =>
      unfold Index.alter
      split_ifs <;> simp

theorem IsPlaced.insertAt (h : IsPlaced way o) (hn : directory? name = some (way ++ dir)) :
    IsPlaced way (insertAt name dir o) := by
  induction dir generalizing way o with
  | nil =>
    cases h with
    | @node way fs ds files ascending full below =>
      refine .node ?_ ascending full below
      intro f hf
      rcases List.mem_append.1 hf with hf | hf
      · exact files f hf
      · rw [List.mem_singleton.1 hf, hn, List.append_nil]
  | cons d rest ih =>
    have hold := h.getD_find? d
    cases h with
    | @node way fs ds files ascending full below =>
      have hnew := ih hold (by rw [hn, List.append_assoc]; rfl)
      have hentry : ∀ e ∈ ds.alter d fun old => Outline.insertAt name rest (old.getD empty),
          e.2 = Outline.insertAt name rest ((Index.find? d ds).getD empty) ∧ e.1 = d ∨ e ∈ ds := by
        rintro ⟨k, v⟩ he
        rw [Index.mem_iff_find? (ascending.alter _ _), Index.find?_alter ascending] at he
        split at he
        next hk => exact .inl ⟨(Option.some.inj he).symm, hk⟩
        next => exact .inr ((Index.mem_iff_find? ascending).2 he)
      refine .node files (ascending.alter _ _) ?_ ?_
      · intro e he
        rcases hentry e he with ⟨hv, -⟩ | he
        · exact hv ▸ insertAt_ne_empty _ _ _
        · exact full e he
      · intro e he
        rcases hentry e he with ⟨hv, hk⟩ | he
        · exact hv ▸ hk ▸ hnew
        · exact below e he

/-- A name is put in on the way to its directory, and everything else stays as it was. -/
theorem IsPlaced.at?_insertAt (h : IsPlaced way o) (target : List Text) :
    (Outline.insertAt name dir o).at? target =
      if target <+: dir then
        some (Outline.insertAt name (dir.drop target.length) ((o.at? target).getD empty))
      else o.at? target := by
  induction dir generalizing way o target with
  | nil =>
    obtain ⟨fs, ds⟩ := o
    cases target with
    | nil => rfl
    | cons e target => rfl
  | cons d rest ih =>
    have hold := h.getD_find? d
    have hasc := h.ascending
    obtain ⟨fs, ds⟩ := o
    simp only [directories] at hold hasc
    cases target with
    | nil => rfl
    | cons e target =>
      simp only [at?, Outline.insertAt, directories, Index.find?_alter hasc]
      by_cases he : e = d
      · subst he
        rw [if_pos rfl, Option.bind_some, ih hold]
        simp only [List.cons_prefix_cons, true_and, List.length_cons, List.drop_succ_cons]
        cases Index.find? e ds with
        | some p => rfl
        | none => by_cases ht : target = [] <;> simp [at?_empty, ht]
      · simp [he]

def filesAt (way : List Text) (o : Outline) : List Text := ((o.at? way).map files).getD []

theorem files_insertAt (name : Text) (dir : List Text) (o : Outline) :
    (insertAt name dir o).files = o.files ++ if dir = [] then [name] else [] := by
  obtain ⟨fs, ds⟩ := o
  cases dir <;> simp [insertAt, files]

theorem insert_eq (o : Outline) (name : Text) :
    insert o name = (directory? name).elim o fun dir => insertAt name dir o := by
  unfold insert directory?
  split
  next hs => simp [hs]
  next hs => simp [hs]

section
variable (h : IsPlaced [] o)
include h

theorem IsPlaced.insert (name : Text) : IsPlaced [] (o.insert name) := by
  rw [insert_eq]
  cases hd : directory? name with
  | none => exact h
  | some dir => exact h.insertAt hd

theorem IsPlaced.filesAt_insert (way : List Text) (name : Text) :
    filesAt way (o.insert name) =
      filesAt way o ++ if directory? name = some way then [name] else [] := by
  rw [insert_eq]
  cases hd : directory? name with
  | none => simp
  | some dir =>
    rw [Option.elim_some, filesAt, h.at?_insertAt]
    by_cases hp : way <+: dir
    · have hfiles : ((o.at? way).getD empty).files = filesAt way o := by
        cases ho : o.at? way <;> simp [filesAt, ho, empty, files]
      have hdrop : dir.drop way.length = [] ↔ dir = way := by
        obtain ⟨rest, rfl⟩ := hp
        simp
      simp [hp, files_insertAt, hfiles, hdrop]
    · have hne : dir ≠ way := fun he => hp (he ▸ List.prefix_rfl)
      simp [hp, hne, filesAt]

theorem IsPlaced.isSome_at?_insert (way : List Text) (name : Text) :
    ((o.insert name).at? way).isSome = true ↔
      (o.at? way).isSome = true ∨ ∃ dir, directory? name = some dir ∧ way <+: dir := by
  rw [insert_eq]
  cases hd : directory? name with
  | none => simp
  | some dir =>
    rw [Option.elim_some, h.at?_insertAt]
    by_cases hp : way <+: dir <;> simp [hp]

theorem IsPlaced.foldl_insert (names : List Text) : IsPlaced [] (names.foldl Outline.insert o) := by
  induction names generalizing o with
  | nil => exact h
  | cons name names ih => exact ih (h.insert name)

theorem IsPlaced.filesAt_foldl_insert (way names : List Text) :
    filesAt way (names.foldl Outline.insert o) =
      filesAt way o ++ names.filter fun name => directory? name = some way := by
  induction names generalizing o with
  | nil => simp
  | cons name names ih =>
    rw [List.foldl_cons, ih (h.insert name), h.filesAt_insert, List.append_assoc]
    by_cases hd : directory? name = some way <;> simp [hd]

theorem IsPlaced.isSome_at?_foldl_insert (way names : List Text) :
    ((names.foldl Outline.insert o).at? way).isSome = true ↔
      (o.at? way).isSome = true ∨ ∃ name ∈ names, ∃ dir, directory? name = some dir ∧ way <+: dir := by
  induction names generalizing o with
  | nil => simp
  | cons name names ih =>
    rw [List.foldl_cons, ih (h.insert name), h.isSome_at?_insert, or_assoc]
    simp

end

theorem isPlaced_ofNames (names : List Text) : IsPlaced [] (ofNames names) :=
  (isPlaced_empty []).foldl_insert names

theorem filesAt_ofNames (way names : List Text) :
    filesAt way (ofNames names) = names.filter fun name => directory? name = some way := by
  rw [ofNames, (isPlaced_empty []).filesAt_foldl_insert, filesAt, at?_empty]
  by_cases hw : way = [] <;> simp [hw, empty, files]

theorem isSome_at?_ofNames (way names : List Text) : ((ofNames names).at? way).isSome = true ↔
    way = [] ∨ ∃ name ∈ names, ∃ dir, directory? name = some dir ∧ way <+: dir := by
  rw [ofNames, (isPlaced_empty []).isSome_at?_foldl_insert, at?_empty]
  by_cases hw : way = [] <;> simp [hw]

/-- An outline is told by the directories in it and the files of each of them. -/
theorem IsPlaced.eq_of_filesAt {start : List Text} (h : IsPlaced start o) (hp : IsPlaced start p)
    (hsome : ∀ way, (o.at? way).isSome = true ↔ (p.at? way).isSome = true)
    (hfiles : ∀ way, filesAt way o = filesAt way p) : o = p := by
  induction o using inductionOn generalizing p start with
  | node fs ds ih =>
    have ho := h.ascending
    have hother := hp.ascending
    obtain ⟨fs', ds'⟩ := p
    simp only [directories] at ho hother
    have hfs : fs = fs' := hfiles []
    have hds : ds = ds' := by
      apply Index.eq_of_find? ho hother
      intro d
      have hd := hsome [d]
      have hsub : ∀ way, (Outline.node fs ds).at? (d :: way) = (Index.find? d ds).bind (at? way) ∧
          (Outline.node fs' ds').at? (d :: way) = (Index.find? d ds').bind (at? way) :=
        fun _ => ⟨rfl, rfl⟩
      rw [(hsub []).1, (hsub []).2] at hd
      cases hf : Index.find? d ds with
      | none =>
        cases hf' : Index.find? d ds' with
        | none => rfl
        | some v => simp [hf, hf', at?] at hd
      | some u =>
        cases hf' : Index.find? d ds' with
        | none => simp [hf, hf', at?] at hd
        | some v =>
          have hmem := (Index.mem_iff_find? ho).2 hf
          have huv : u = v := by
            refine ih (d, u) hmem (h.of_find? hf) (hp.of_find? hf') ?_ ?_
            · intro way
              have hw := hsome (d :: way)
              rwa [(hsub way).1, (hsub way).2, hf, hf'] at hw
            · intro way
              have hw := hfiles (d :: way)
              rwa [filesAt, filesAt, (hsub way).1, (hsub way).2, hf, hf'] at hw
          rw [huv]
    rw [hfs, hds]

theorem countAll_alter {d : Text} {f : Option Outline → Outline} {ds : Index Text Outline}
    (hf : ∀ old, (f old).count = (old.getD empty).count + 1) :
    countAll (ds.alter d f) = countAll ds + 1 := by
  induction ds with
  | nil => simp [Index.alter, countAll, hf, empty, count]
  | cons e ds ih =>
    obtain ⟨k, v⟩ := e
    unfold Index.alter
    split
    · simp only [countAll, hf, Option.getD_none, empty, count, List.length_nil]
      omega
    · split
      · simp only [countAll, hf, Option.getD_some]
        omega
      · simp only [countAll, ih]
        omega

theorem count_insertAt (name : Text) (dir : List Text) (o : Outline) :
    (insertAt name dir o).count = o.count + 1 := by
  induction dir generalizing o with
  | nil =>
    obtain ⟨fs, ds⟩ := o
    simp only [insertAt, count, List.length_append, List.length_singleton]
    omega
  | cons d rest ih =>
    obtain ⟨fs, ds⟩ := o
    simp only [insertAt, count, countAll_alter fun old => ih (old.getD empty)]
    omega

theorem count_foldl_insert (names : List Text) (o : Outline) : (names.foldl insert o).count =
    o.count + (names.filter fun name => segments name ≠ []).length := by
  induction names generalizing o with
  | nil => rfl
  | cons name names ih =>
    rw [List.foldl_cons, ih, insert_eq, directory?]
    by_cases hs : segments name = []
    · simp [hs]
    · simp only [hs, if_false, Option.elim_some, count_insertAt, List.filter_cons, ne_eq, not_false_eq_true,
        decide_true, if_true, List.length_cons]
      omega

/-- In the outline of some names each directory holds the names that belong in it, in order and as often
as they come. There is no other directory than those on the way to a name, names without segments change
nothing, and all others are counted. So names with the same order in each directory make the same
outline. -/
theorem ofNames_placement (names : List Text) :
    (∀ way, filesAt way (ofNames names) = names.filter fun name => directory? name = some way) ∧
      (∀ way, ((ofNames names).at? way).isSome = true ↔
        way = [] ∨ ∃ name ∈ names, ∃ dir, directory? name = some dir ∧ way <+: dir) ∧
      (∀ front name back, segments name = [] →
        ofNames (front ++ name :: back) = ofNames (front ++ back)) ∧
      (ofNames names).count = (names.filter fun name => segments name ≠ []).length ∧
      ∀ others : List Text,
        (∀ way, (names.filter fun name => directory? name = some way) =
          others.filter fun name => directory? name = some way) →
        ofNames names = ofNames others := by
  refine ⟨fun way => filesAt_ofNames way names, fun way => isSome_at?_ofNames way names, ?_, ?_, ?_⟩
  · intro front name back hs
    have hskip : ∀ o, insert o name = o := by
      intro o
      rw [insert_eq, directory?, if_pos hs]
      rfl
    simp only [ofNames, List.foldl_append, List.foldl_cons, hskip]
  · rw [ofNames, count_foldl_insert]
    simp [empty, count, countAll]
  · intro others h
    refine (isPlaced_ofNames names).eq_of_filesAt (isPlaced_ofNames others) ?_ ?_
    · intro way
      have hmem : ∀ dir, (∃ name ∈ names, directory? name = some dir) ↔
          ∃ name ∈ others, directory? name = some dir := by
        intro dir
        have hname := fun name => congrArg (name ∈ ·) (h dir)
        simp only [List.mem_filter, decide_eq_true_eq, eq_iff_iff] at hname
        exact exists_congr hname
      rw [isSome_at?_ofNames, isSome_at?_ofNames]
      have hswap : ∀ l : List Text, (∃ name ∈ l, ∃ dir, directory? name = some dir ∧ way <+: dir) ↔
          ∃ dir, way <+: dir ∧ ∃ name ∈ l, directory? name = some dir := by
        intro l
        constructor
        · intro h
          obtain ⟨name, hn, dir, hd, hp⟩ := h
          exact ⟨dir, hp, name, hn, hd⟩
        · intro h
          obtain ⟨dir, hp, name, hn, hd⟩ := h
          exact ⟨name, hn, dir, hd, hp⟩
      simp only [hswap, hmem]
    · intro way
      rw [filesAt_ofNames, filesAt_ofNames, h way]

theorem ofNames_placement_interleaved :
    let names := ["b/x".toList, "//".toList, "z".toList, "/a//y".toList, "b/x".toList]
    let others := ["/a//y".toList, "b/x".toList, "b/x".toList, "z".toList]
    segments "//".toList = [] ∧
      (∀ way, (names.filter fun name => directory? name = some way) =
        others.filter fun name => directory? name = some way) ∧
      ofNames names = ofNames others ∧ (ofNames names).count = 4 ∧
      filesAt ["b".toList] (ofNames names) = ["b/x".toList, "b/x".toList] := by
  intro names others
  obtain ⟨hfiles, -, -, hcount, hothers⟩ := ofNames_placement names
  have hsame : ∀ way, (names.filter fun name => directory? name = some way) =
      others.filter fun name => directory? name = some way := by
    intro way
    obtain ⟨hb, hnone, hz, ha⟩ : directory? "b/x".toList = some ["b".toList] ∧
        directory? "//".toList = none ∧ directory? "z".toList = some [] ∧
        directory? "/a//y".toList = some ["a".toList] := by decide
    simp only [names, others, List.filter_cons, List.filter_nil, hb, hnone, hz, ha]
    by_cases h₁ : way = ["b".toList]
    · subst h₁; decide
    · by_cases h₂ : way = ["a".toList]
      · subst h₂; decide
      · simp only [Option.some.injEq, Ne.symm h₁, Ne.symm h₂, reduceCtorEq, decide_false,
          Bool.false_eq_true, if_false]
  exact ⟨by decide, hsame, hothers others hsame, hcount, hfiles _⟩

end Outline
end Folio
