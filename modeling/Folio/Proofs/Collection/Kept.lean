import Mathlib.Data.List.Dedup
import Mathlib.Data.List.Sort
import Mathlib.Tactic.Tauto
import Folio.Collection
import Folio.Proofs.Index
import Folio.Proofs.Rule.Verdict

/-!
# The kept files

Of the files that turn up the rules let some through, and of those that are shown alike the last one is kept.
Where no two are shown alike it only matters which files turned up, not how often or in which order.
-/
namespace Folio

namespace Candidate
variable {f g : Candidate} {l m : List Candidate} {p : Candidate → Bool}

/-- The candidate stands in the list, and behind it none that is shown like it. -/
def IsLast (l : List Candidate) (f : Candidate) : Prop :=
  ∃ front back, l = front ++ f :: back ∧ ∀ g ∈ back, g.path.shown ≠ f.path.shown

/-- No two candidates of the list are shown alike. -/
def TellsApart (l : List Candidate) : Prop := ∀ f ∈ l, ∀ g ∈ l, f.path.shown = g.path.shown → f = g

instance (l : List Candidate) : Decidable (TellsApart l) :=
  inferInstanceAs (Decidable (∀ f ∈ l, ∀ g ∈ l, f.path.shown = g.path.shown → f = g))

theorem IsLast.mem (h : IsLast l f) : f ∈ l := by
  obtain ⟨front, back, rfl, -⟩ := h
  simp

theorem isLast_cons_iff : IsLast (g :: l) f ↔
    IsLast l f ∨ f = g ∧ ∀ later ∈ l, later.path.shown ≠ f.path.shown := by
  constructor
  · rintro ⟨front, back, hl, hback⟩
    cases front with
    | nil =>
      cases hl
      exact .inr ⟨rfl, hback⟩
    | cons a front =>
      cases hl
      exact .inl ⟨front, back, rfl, hback⟩
  · rintro (⟨front, back, rfl, hback⟩ | ⟨rfl, hback⟩)
    · exact ⟨g :: front, back, rfl, hback⟩
    · exact ⟨[], l, rfl, hback⟩

/-- A later list has the last word on what is shown alike. -/
theorem isLast_append_iff : IsLast (l ++ m) f ↔
    IsLast m f ∨ IsLast l f ∧ ∀ g ∈ m, g.path.shown ≠ f.path.shown := by
  induction l with
  | nil => simp [IsLast]
  | cons g l ih =>
    rw [List.cons_append, isLast_cons_iff, isLast_cons_iff, ih, List.forall_mem_append]
    tauto

theorem exists_isLast (h : f ∈ l) : ∃ g, IsLast l g ∧ g.path.shown = f.path.shown := by
  induction l using List.reverseRecOn with
  | nil => cases h
  | append_singleton l last ih =>
    have hlast : IsLast [last] last := ⟨[], [], rfl, by simp⟩
    by_cases hshown : last.path.shown = f.path.shown
    · exact ⟨last, isLast_append_iff.2 (.inl hlast), hshown⟩
    · have hf : f ∈ l := by
        rcases List.mem_append.1 h with h | h
        · exact h
        · exact absurd (congrArg (·.path.shown) (List.mem_singleton.1 h).symm) hshown
      obtain ⟨g, hg, hgf⟩ := ih hf
      exact ⟨g, isLast_append_iff.2 (.inr ⟨hg, by simpa [hgf] using hshown⟩), hgf⟩

theorem IsLast.eq (hf : IsLast l f) (hg : IsLast l g) (h : f.path.shown = g.path.shown) : f = g := by
  induction l with
  | nil => cases hf.mem
  | cons a l ih =>
    rw [isLast_cons_iff] at hf hg
    rcases hf with hf | ⟨rfl, hl⟩ <;> rcases hg with hg | ⟨rfl, hl'⟩
    · exact ih hf hg
    · exact absurd h (hl' f hf.mem)
    · exact absurd h.symm (hl g hg.mem)
    · rfl

/-- Each candidate of a list is the last one that is shown like it exactly if no two are shown alike. -/
theorem forall_isLast_iff : (∀ f, IsLast l f ↔ f ∈ l) ↔ TellsApart l := by
  constructor
  · intro h f hf g hg
    exact ((h f).2 hf).eq ((h g).2 hg)
  · intro h f
    refine ⟨IsLast.mem, fun hf => ?_⟩
    obtain ⟨g, hg, hshown⟩ := exists_isLast hf
    rwa [← h g hg.mem f hf hshown]

/-- Where candidates are made of keys in ascending order, the last one has the greatest key. -/
theorem isLast_map_iff {β : Type} [LT β] [LE β] [Std.IsLinearOrder β] [Std.LawfulOrderLT β] {keys : List β}
    (h : keys.Pairwise fun a b => a < b) (candidate : β → Candidate) : IsLast (keys.map candidate) f ↔
      ∃ k ∈ keys, f = candidate k ∧
        ∀ other ∈ keys, (candidate other).path.shown = (candidate k).path.shown → other ≤ k := by
  induction keys with
  | nil => simp [IsLast]
  | cons k keys ih =>
    obtain ⟨hfirst, hrest⟩ := List.pairwise_cons.1 h
    rw [List.map_cons, isLast_cons_iff, ih hrest]
    constructor
    · rintro (⟨j, hj, rfl, hlast⟩ | ⟨rfl, hlater⟩)
      · refine ⟨j, List.mem_cons_of_mem _ hj, rfl, fun other hother hshown => ?_⟩
        rcases List.mem_cons.1 hother with rfl | hother
        · exact Std.le_of_lt (hfirst j hj)
        · exact hlast other hother hshown
      · refine ⟨k, List.mem_cons_self, rfl, fun other hother hshown => ?_⟩
        rcases List.mem_cons.1 hother with rfl | hother
        · exact Std.le_refl _
        · exact absurd hshown (hlater _ (List.mem_map_of_mem hother))
    · rintro ⟨j, hj, rfl, hlast⟩
      rcases List.mem_cons.1 hj with rfl | hj
      · refine .inr ⟨rfl, fun later hlater hshown => ?_⟩
        obtain ⟨other, hother, rfl⟩ := List.mem_map.1 hlater
        have hle := hlast other (List.mem_cons_of_mem _ hother) hshown
        exact Std.not_lt.2 hle (hfirst other hother)
      · exact .inl ⟨j, hj, rfl, fun other hother => hlast other (List.mem_cons_of_mem _ hother)⟩

/-- Of a list the last candidates that are shown as they are, in the order of how they are shown. -/
def settle (l : List Candidate) : List Candidate :=
  (Index.ofList (l.map fun f => (f.path.shown, f))).map (·.2)

theorem fst_eq_of_mem_ofList {e : Text × Candidate}
    (h : e ∈ Index.ofList (l.map fun f => (f.path.shown, f))) : e.1 = e.2.path.shown := by
  obtain ⟨front, back, hl, -⟩ := Index.mem_ofList_iff.1 h
  have hmem : e ∈ l.map fun f => (f.path.shown, f) := by simp [hl]
  obtain ⟨f, -, rfl⟩ := List.mem_map.1 hmem
  rfl

theorem mem_settle_iff : f ∈ settle l ↔ IsLast l f := by
  have hmem : f ∈ settle l ↔ (f.path.shown, f) ∈ Index.ofList (l.map fun f => (f.path.shown, f)) := by
    rw [settle, List.mem_map]
    constructor
    · rintro ⟨e, he, rfl⟩
      exact fst_eq_of_mem_ofList he ▸ he
    · exact fun h => ⟨_, h, rfl⟩
  rw [hmem, Index.mem_ofList_iff]
  constructor
  · rintro ⟨front, back, hl, hback⟩
    obtain ⟨front, rest, rfl, -, hrest⟩ := List.map_eq_append_iff.1 hl
    obtain ⟨g, back, rfl, hg, rfl⟩ := List.map_eq_cons_iff.1 hrest
    obtain rfl : g = f := (Prod.mk.inj hg).2
    exact ⟨front, back, rfl, fun later hlater => hback _ (List.mem_map_of_mem hlater)⟩
  · rintro ⟨front, back, rfl, hback⟩
    rw [List.map_append, List.map_cons]
    refine ⟨_, _, rfl, fun e he => ?_⟩
    obtain ⟨later, hlater, rfl⟩ := List.mem_map.1 he
    exact hback later hlater

theorem pairwise_settle (l : List Candidate) :
    (settle l).Pairwise fun a b => a.path.shown < b.path.shown := by
  refine List.pairwise_map.2 ((Index.ascending_ofList _).imp_of_mem fun {a b} ha hb hlt => ?_)
  rwa [← fst_eq_of_mem_ofList ha, ← fst_eq_of_mem_ofList hb]

/-- Candidates in ascending order are told by which candidates there are. -/
theorem eq_of_mem_iff (hl : l.Pairwise fun a b => a.path.shown < b.path.shown)
    (hm : m.Pairwise fun a b => a.path.shown < b.path.shown) (h : ∀ f, f ∈ l ↔ f ∈ m) : l = m := by
  have hasymm : Std.Antisymm fun a b : Candidate => a.path.shown < b.path.shown :=
    ⟨fun _ _ hab hba => absurd hba (List.lt_asymm hab)⟩
  have hirrefl : Std.Irrefl fun a b : Candidate => a.path.shown < b.path.shown :=
    ⟨fun a => List.lt_irrefl a.path.shown⟩
  exact hl.eq_of_mem_iff hm h

theorem TellsApart.mem_settle_iff (h : TellsApart l) : f ∈ settle l ↔ f ∈ l :=
  Candidate.mem_settle_iff.trans (forall_isLast_iff.2 h f)

/-- There is one kept candidate for each way in which candidates are shown. -/
theorem length_settle (l : List Candidate) :
    (settle l).length = (l.map fun f => f.path.shown).dedup.length := by
  have hnodup : ((settle l).map fun f => f.path.shown).Nodup := by
    refine List.pairwise_map.2 ((pairwise_settle l).imp fun {f g} hlt hshown => ?_)
    rw [hshown] at hlt
    exact List.lt_irrefl _ hlt
  have hmem : ∀ t, t ∈ (settle l).map (fun f => f.path.shown) ↔
      t ∈ (l.map fun f => f.path.shown).dedup := by
    intro t
    simp only [List.mem_dedup, List.mem_map, Candidate.mem_settle_iff]
    constructor
    · rintro ⟨f, hf, rfl⟩
      exact ⟨f, hf.mem, rfl⟩
    · rintro ⟨f, hf, rfl⟩
      exact exists_isLast hf
  have hperm := (List.perm_ext_iff_of_nodup hnodup (List.nodup_dedup _)).2 hmem
  rw [← hperm.length_eq, List.length_map]

theorem length_settle_le (l : List Candidate) : (settle l).length ≤ l.length := by
  have hle := (List.dedup_sublist (l.map fun f => f.path.shown)).length_le
  rwa [← length_settle, List.length_map] at hle

theorem length_settle_eq_iff : (settle l).length = l.length ↔ (l.map fun f => f.path.shown).Nodup := by
  rw [length_settle, ← List.length_map fun f : Candidate => f.path.shown, ← List.dedup_eq_self]
  exact ⟨(List.dedup_sublist _).eq_of_length, congrArg List.length⟩

end Candidate

namespace Collector
variable {c : Collector} {s : Collection} {disk : Disk} {target : Text} {targets : List Text} {fs : List Find}
  {f : Candidate} {p : Path}

theorem mem_searched_iff : .file p ∈ c.searched disk target ↔
    ∃ paths, Target.expand disk (Target.patternOf c.workingDirectory target) = .ok paths ∧
      ∃ q ∈ paths, disk.isFile q = true ∧ q.clean = p := by
  rw [searched]
  cases Target.expand disk (Target.patternOf c.workingDirectory target) with
  | error fault => simp
  | ok paths => simp [and_assoc]

def letThrough? (c : Collector) : Find → Option Candidate
  | .report _ => none
  | .file p => if (c.rules.verdict (c.nameOf p) false).isExcluded then none else some ⟨p, c.nameOf p⟩

/-- What the rules let through of all that turned up. -/
def letThrough (c : Collector) (fs : List Find) : List Candidate := fs.filterMap c.letThrough?

theorem mem_letThrough_iff : f ∈ c.letThrough fs ↔ .file f.path ∈ fs ∧ f.name = c.nameOf f.path ∧
    (c.rules.verdict f.name false).isExcluded = false := by
  rw [letThrough, List.mem_filterMap]
  constructor
  · rintro ⟨found, hfound, hf⟩
    cases found with
    | report event => cases hf
    | file p =>
      rw [letThrough?] at hf
      split at hf
      · cases hf
      next hx =>
        cases hf
        exact ⟨hfound, rfl, by simpa using hx⟩
  · rintro ⟨hfound, hname, hx⟩
    refine ⟨_, hfound, ?_⟩
    rw [letThrough?, ← hname, if_neg (by simp [hx])]

theorem kept_foldl_take (fs : List Find) (s : Collection) : (fs.foldl c.take s).kept =
    (c.letThrough fs).foldl (fun kept f => kept.insert f.path.shown f) s.kept := by
  induction fs generalizing s with
  | nil => rfl
  | cons find fs ih =>
    rw [List.foldl_cons, ih, letThrough, letThrough, List.filterMap_cons]
    cases find with
    | report event => rfl
    | file p =>
      rw [letThrough?, take]
      cases c.rules.verdict (c.nameOf p) false <;> rfl

def judged (c : Collector) (fs : List Find) : Collection := fs.foldl c.take .empty

/-- A collection keeps of what the rules let through the last that is shown as it is. -/
theorem files_judged (fs : List Find) : (c.judged fs).files = Candidate.settle (c.letThrough fs) := by
  rw [Collection.files, judged, kept_foldl_take, Candidate.settle, Index.ofList, List.foldl_map]
  rfl

theorem mem_files_judged_iff : f ∈ (c.judged fs).files ↔ Candidate.IsLast (c.letThrough fs) f := by
  rw [files_judged, Candidate.mem_settle_iff]

theorem files_collect (c : Collector) (disk : Disk) (targets : List Text) :
    (c.collect disk targets).files = Candidate.settle (c.letThrough (c.finds disk targets)) :=
  files_judged _

theorem mem_files_iff : f ∈ (c.collect disk targets).files ↔
    Candidate.IsLast (c.letThrough (c.finds disk targets)) f :=
  mem_files_judged_iff

theorem mem_letThrough_of_mem_files (h : f ∈ (c.collect disk targets).files) :
    .file f.path ∈ c.finds disk targets ∧ f.name = c.nameOf f.path ∧
      (c.rules.verdict f.name false).isExcluded = false :=
  mem_letThrough_iff.1 (mem_files_iff.1 h).mem

theorem pairwise_files :
    (c.collect disk targets).files.Pairwise fun a b => a.path.shown < b.path.shown := by
  rw [files_collect]
  exact Candidate.pairwise_settle _

end Collector
end Folio
