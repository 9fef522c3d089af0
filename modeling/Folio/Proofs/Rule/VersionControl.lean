import Folio.Proofs.Glob.Unguarded
import Folio.Proofs.Rule.Overruling
import Folio.Proofs.Text.Pieces

/-!
# The data of version control

The rule on version control stands behind the extra lines and in front of the rules that are found in the
tree. It applies to every path with the name of the data on it, so that on such a path the extra lines have
no say, and to no other path.
-/
namespace Folio

namespace Rule
open Glob
variable {r : Rule} {name path : Text} {isDirectory : Bool}

theorem accepts_globstar_name_iff (hne : name ≠ []) :
    accepts dots (.globstar :: name.map fun c => .single (.literal c)) path = true ↔
      path = name ∨ ∃ front, path = front ++ '/' :: name := by
  have hd : dots.guarded = false := rfl
  have hname : ∀ p, accepts dots (name.map fun c => .single (.literal c)) p = true ↔ p = name := by
    intro p
    have h : accepts dots ((name.map fun c => .single (.literal c)) ++ []) p = true ↔
        ∃ rest, p = name ++ rest ∧ accepts dots [] rest = true := accepts_literals_iff hd
    simpa [accepts_nil_iff] using h
  rw [accepts_globstar_iff hd]
  simp [hname, hne.symm]

/-- A rule about a name at any depth applies to the paths with this name between two slashes. -/
theorem applies_name_iff (ht : r.tokens = .globstar :: name.map fun c => .single (.literal c))
    (hd : r.directoriesOnly = false) (hslash : '/' ∉ name) (hne : name ≠ []) :
    r.applies path isDirectory = true ↔ name ∈ path.splitOn '/' := by
  have hnil : ¬ accepts dots r.tokens [] = true := by
    rw [ht, accepts_globstar_name_iff hne]
    simp [hne.symm]
  rw [Text.mem_splitOn_iff hslash]
  simp only [← accepts_globstar_name_iff hne, ← ht]
  simp only [applies, hd, Bool.not_false, Bool.true_or, Bool.true_and, Bool.or_eq_true, List.any_eq_true]
  constructor
  · intro h
    rcases h with h | ⟨q, hq, h⟩
    · exact ⟨path, .inl rfl, h⟩
    · exact ⟨q, .inr (mem_ancestors.1 hq).2, h⟩
  · intro h
    obtain ⟨q, rfl | hrest, h⟩ := h
    · exact .inl h
    · refine .inr ⟨q, mem_ancestors.2 ⟨?_, hrest⟩, h⟩
      rintro rfl
      exact hnil h

end Rule

namespace Ruleset
variable {extra found : List Text} {path : Text} {isDirectory : Bool}

def dataName : Text := ".git".toList

theorem exists_compile_versionControl : ∃ r, Rule.compile versionControl = .ok r ∧ r.negated = false ∧
    ∀ path isDirectory, r.applies path isDirectory = true ↔ dataName ∈ path.splitOn '/' := by
  have hc : Rule.compile versionControl = .ok ⟨versionControl, false, false,
      .globstar :: dataName.map fun c => .single (.literal c)⟩ := by
    decide +kernel
  exact ⟨_, hc, rfl, fun path isDirectory => Rule.applies_name_iff rfl rfl (by decide) (by decide)⟩

/-- The rule on version control comes in between what the extra lines and what the found rules say. -/
theorem verdict_ordered_eq_foldl (extra found : List Text) :
    (ofTexts (ordered extra found)).verdict path isDirectory =
      found.foldl (overrule path isDirectory) (overrule path isDirectory
        ((ofTexts (extra.filterMap (ruleOfLine? Path.rootName))).verdict path isDirectory) versionControl) := by
  have hordered : ordered extra found =
      extra.filterMap (ruleOfLine? Path.rootName) ++ [versionControl] ++ found := by
    simp [ordered]
  rw [hordered, verdict_insert]

theorem verdict_ordered_of_mem (h : dataName ∈ path.splitOn '/') (extra found : List Text) :
    (ofTexts (ordered extra found)).verdict path isDirectory =
      found.foldl (overrule path isDirectory) (.excluded versionControl) := by
  obtain ⟨r, hc, hn, happlies⟩ := exists_compile_versionControl
  rw [verdict_ordered_eq_foldl, overrule_of_applies hc ((happlies path isDirectory).2 h), Rule.verdict, hn,
    Rule.text_of_compile hc]
  rfl

theorem verdict_ordered_of_notMem (h : dataName ∉ path.splitOn '/') (extra found : List Text) :
    (ofTexts (ordered extra found)).verdict path isDirectory =
      (ofTexts (extra.filterMap (ruleOfLine? Path.rootName) ++ found)).verdict path isDirectory := by
  obtain ⟨r, hc, -, happlies⟩ := exists_compile_versionControl
  have hsilent : IsSilent path isDirectory versionControl := by
    intro s hs
    cases hc.symm.trans hs
    exact Bool.eq_false_iff.2 fun ha => h ((happlies path isDirectory).1 ha)
  rw [verdict_ordered_eq_foldl, overrule_of_isSilent hsilent, verdict_append]

/-- Only a rule that is found in the tree can reveal the data of version control. On a path with the name of
the data the extra lines have no say, and the verdict is an exclusion or the one of a negation that was found
and applies. On every other path the rule on version control has no say. -/
theorem versionControl_revealed (extra found : List Text) (path : Text) (isDirectory : Bool) :
    let verdict := (ofTexts (ordered extra found)).verdict path isDirectory
    (dataName ∈ path.splitOn '/' →
      verdict = (ofTexts (ordered [] found)).verdict path isDirectory ∧
        (verdict.isExcluded = true ∨ ∃ text ∈ found, ∃ r, Rule.compile text = .ok r ∧ r.negated = true ∧
          r.applies path isDirectory = true ∧ verdict = .reincluded text)) ∧
      (dataName ∉ path.splitOn '/' →
        verdict =
          (ofTexts (extra.filterMap (ruleOfLine? Path.rootName) ++ found)).verdict path isDirectory) := by
  intro verdict
  refine ⟨fun h => ?_, fun h => verdict_ordered_of_notMem h extra found⟩
  have hverdict : verdict = found.foldl (overrule path isDirectory) (.excluded versionControl) :=
    verdict_ordered_of_mem h extra found
  refine ⟨hverdict.trans (verdict_ordered_of_mem h [] found).symm, ?_⟩
  rw [hverdict]
  rcases foldl_overrule_eq_or found (.excluded versionControl) with hlast | ⟨text, ht, r, hc, ha, hlast⟩
  · exact .inl (by rw [hlast]; rfl)
  · rw [hlast, Rule.verdict, Rule.text_of_compile hc]
    cases hn : r.negated with
    | false => exact .inl rfl
    | true => exact .inr ⟨text, ht, r, hc, hn, ha, rfl⟩

/-- Outside of the root as well no extra negation reveals the data, and one that is found in the tree does. -/
theorem versionControl_revealed_outside :
    let path := "/x/.git/config".toList
    let verdictBy extra found := (ofTexts (ordered extra found)).verdict path false
    dataName ∈ path.splitOn '/' ∧ (verdictBy ["!**/.git".toList, "!config".toList] []).isExcluded = true ∧
      verdictBy [] ["!**/config".toList] = .reincluded "!**/config".toList := by
  intro path verdictBy
  have hmem : dataName ∈ path.splitOn '/' := by decide
  have hextra := ((versionControl_revealed ["!**/.git".toList, "!config".toList] [] path false).1 hmem).2
  exact ⟨hmem, hextra.resolve_right (by simp), by decide +kernel⟩

end Ruleset
end Folio
