import Folio.Proofs.Collection.Joined
import Folio.Proofs.Walk.Start
import Mathlib.Data.List.Nodup

/-!
# The accounts of a collection

Each judged file is counted once, and it is let through or ignored by the verdict on its name. So a collection
never holds more than it counted. It holds less where files are shown alike: they have one place among the kept
files.
-/
namespace Folio

/-- What turned up is not one file twice. -/
def Find.Differ (a b : Find) : Prop := ∀ p, a = .file p → b ≠ .file p

namespace Collector
open Disk
variable {c : Collector} {disk : Disk} {targets : List Text} {name rule : Text} {fs : List Find}

theorem countP_isFile (fs : List Find) :
    fs.countP Find.isFile = (c.letThrough fs).length + (fs.filterMap c.ignored?).length := by
  induction fs with
  | nil => rfl
  | cons f fs ih =>
    rw [List.countP_cons, ih, letThrough, letThrough, List.filterMap_cons, List.filterMap_cons]
    cases f with
    | report event => rfl
    | file p =>
      rw [letThrough?, ignored?, Find.isFile, if_pos rfl]
      cases c.rules.verdict (c.nameOf p) false <;> simp [Verdict.isExcluded] <;> omega

theorem discovered_collect (c : Collector) (disk : Disk) (targets : List Text) :
    (c.collect disk targets).discovered =
      (c.letThrough (c.finds disk targets)).length + (c.collect disk targets).ignored.length := by
  rw [(collect_eq targets).1, (collect_eq targets).2, countP_isFile]

theorem pairwise_walked (hlinks : c.followLinks = false) (start : Path) :
    (c.walked disk start).Pairwise Find.Differ := by
  rw [walked, hlinks]
  refine List.Pairwise.filterMap _ (fun a b hab f hf g hg p hfile hfile' => ?_) (pairwise_walk disk _ start)
  subst hfile hfile'
  cases a with
  | error fault => simp at hf
  | ok e =>
    cases b with
    | error fault => simp at hg
    | ok e' =>
      obtain ⟨-, hpath⟩ : disk.countsAsFile e = true ∧ e.path = p := by simpa using hf
      obtain ⟨-, hpath'⟩ : disk.countsAsFile e' = true ∧ e'.path = p := by simpa using hg
      exact hab e e' rfl rfl (hpath.trans hpath'.symm)

theorem nodup_letThrough (h : fs.Pairwise Find.Differ) : (c.letThrough fs).Nodup := by
  refine List.Pairwise.filterMap _ (fun a b hab f hf g hg hfg => ?_) h
  subst hfg
  cases a with
  | report event => cases hf
  | file p =>
    cases b with
    | report event => cases hg
    | file q =>
      have hpath : ∀ r : Path, c.letThrough? (.file r) = some f → f.path = r := by
        intro r hr
        rw [letThrough?] at hr
        split at hr
        · cases hr
        · exact (congrArg Candidate.path (Option.some.inj hr)).symm
      exact hab p rfl ((hpath q hg).symm.trans (hpath p hf) ▸ rfl)

theorem mem_ignored_iff : (name, rule) ∈ (c.collect disk targets).ignored ↔
    ∃ p, .file p ∈ c.finds disk targets ∧ name = c.nameOf p ∧
      c.rules.verdict name false = .excluded rule := by
  rw [(collect_eq _).1, List.mem_filterMap]
  constructor
  · rintro ⟨f, hf, hignored⟩
    unfold ignored? at hignored
    split at hignored
    · cases hignored
    next p =>
      split at hignored
      next hv =>
        cases hignored
        exact ⟨p, hf, rfl, hv⟩
      · cases hignored
  · rintro ⟨p, hf, rfl, hv⟩
    exact ⟨.file p, hf, by simp [ignored?, hv]⟩

/-- The accounts of a collection balance. The totals are those of what it holds, and it holds no more than it
counted; after a walk of the whole tree that does not follow links it holds all that it counted exactly if no
two files that the rules let through are shown alike. No name is both kept and ignored, and each ignored name
has the text of the last rule that applies to it. -/
theorem collect_balances (c : Collector) (disk : Disk) (targets : List Text) :
    let s := c.collect disk targets
    s.total = .collected s.files.length s.ignored.length s.discovered ∧
      s.files.length + s.ignored.length ≤ s.discovered ∧
      (targets = [] → c.followLinks = false →
        (s.files.length + s.ignored.length = s.discovered ↔
          Candidate.TellsApart (c.letThrough (c.finds disk [])))) ∧
      (∀ f ∈ s.files, ∀ e ∈ s.ignored, f.name ≠ e.1) ∧
      ∀ name rule, (name, rule) ∈ s.ignored →
        ∃ front r back, c.rules.rules = front ++ r :: back ∧ r.text = rule ∧ r.negated = false ∧
          r.applies name false = true ∧ ∀ later ∈ back, later.applies name false = false := by
  intro s
  have hfiles : s.files = Candidate.settle (c.letThrough (c.finds disk targets)) := files_collect c disk targets
  have hdiscovered := discovered_collect c disk targets
  refine ⟨by simp [Collection.total, Collection.files], ?_, ?_, ?_, ?_⟩
  · rw [hfiles, hdiscovered]
    exact Nat.add_le_add_right (Candidate.length_settle_le _) _
  · rintro rfl hlinks
    have hnodup : (c.letThrough (c.finds disk [])).Nodup := nodup_letThrough (pairwise_walked hlinks c.root)
    rw [hfiles, hdiscovered, Nat.add_right_cancel_iff, Candidate.length_settle_eq_iff,
      List.nodup_map_iff_inj_on hnodup]
    rfl
  · intro f hf e he hname
    obtain ⟨-, -, hkept⟩ := mem_letThrough_of_mem_files hf
    obtain ⟨p, -, -, hv⟩ := mem_ignored_iff.1 he
    rw [hname, hv] at hkept
    cases hkept
  · intro name rule h
    obtain ⟨p, -, -, hv⟩ := mem_ignored_iff.1 h
    exact Ruleset.exists_last_of_excluded hv

theorem collect_balances_linkedTree :
    let s := linkedCollector.collect linkedTree []
    linkedCollector.followLinks = false ∧ s.files.length + s.ignored.length = s.discovered ∧
      ("a/b".toList, "**/b".toList) ∈ s.ignored ∧
      ∃ front r back, linkedCollector.rules.rules = front ++ r :: back ∧ r.text = "**/b".toList ∧
        r.negated = false ∧ r.applies "a/b".toList false = true ∧
        ∀ later ∈ back, later.applies "a/b".toList false = false := by
  intro s
  obtain ⟨-, -, hwhole, -, hlast⟩ := collect_balances linkedCollector linkedTree []
  have hfound : .file (pathOf [Utf8.ofString "w", Utf8.ofString "a", Utf8.ofString "b"]) ∈
      linkedCollector.finds linkedTree [] := by
    refine (mem_walked_iff rfl at?_linkedTree).2
      ⟨[Utf8.ofString "a", Utf8.ofString "b"], ⟨_, rfl, .inl rfl⟩, rfl, ?_⟩
    have hentered : linkedCollector.leavesOut [Utf8.ofString "w", Utf8.ofString "a"] = false := by
      decide +kernel
    refine (Node.isOpen_cons_iff rfl).2 ⟨Bool.and_eq_false_iff.2 (.inr hentered), ?_⟩
    exact (Node.isOpen_cons_iff rfl).2 ⟨rfl, Node.isOpen_nil⟩
  have hignored : ("a/b".toList, "**/b".toList) ∈ s.ignored :=
    mem_ignored_iff.2 ⟨_, hfound, by decide, by decide +kernel⟩
  exact ⟨rfl, (hwhole rfl rfl).2 (tellsApart_linkedTree rfl rfl), hignored, hlast _ _ hignored⟩

/-- Of two files that are shown alike, both counted and none ignored, one is held. -/
theorem collect_balances_ne_alikeNames :
    let s := alikeCollector.collect alikeNames []
    alikeCollector.followLinks = false ∧ s.files.length = 1 ∧ s.ignored.length = 0 ∧ s.discovered = 2 := by
  refine ⟨rfl, ?_, ?_, ?_⟩
  · rw [files_alikeNames]
    rfl
  · rw [(collect_eq []).1, finds_alikeNames]
    rfl
  · rw [(collect_eq []).2, finds_alikeNames]
    rfl

end Collector
end Folio
