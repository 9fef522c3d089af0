import Folio.Proofs.Collection.WholeTree
import Folio.Proofs.Rule.Overruling

/-!
# Collections with one rule more

What a collection of a whole tree keeps is told by the verdicts on the names in the tree, although a walk is
pruned by some rulesets and not by others. So a rule that is put in anywhere moves the result in the direction
of its verdicts only: an exclusion takes files away, a negation brings files back.
-/
namespace Folio.Collector
open Disk

section
variable {disk : Disk} {start root : Path} {rules rules' : Ruleset}
  (hc : disk.canonical start = .ok root) (hd : disk.isDirectory root = true)
include hc hd

theorem files_subset_of_excludes (workingDirectory : Path)
    (h : ∀ name, (rules.verdict name false).isExcluded = true →
      (rules'.verdict name false).isExcluded = true) :
    (Collector.collect ⟨root, workingDirectory, rules', false⟩ disk []).files ⊆
      (Collector.collect ⟨root, workingDirectory, rules, false⟩ disk []).files := by
  obtain ⟨place, es, hroot, hes⟩ := canonical_directory hc hd
  intro f hf
  -- which of the files with one name is kept is a matter of the tree alone
  obtain ⟨below, ⟨hne, hfile, hx⟩, rfl, hlast⟩ := (mem_files_wholeTree_iff hroot rfl hes).1 hf
  refine (mem_files_wholeTree_iff hroot rfl hes).2 ⟨below, ⟨hne, hfile, ?_⟩, rfl, hlast⟩
  rw [Bool.eq_false_iff] at hx ⊢
  exact fun hexcluded => hx (h _ hexcluded)

theorem files_eq_of_verdicts (workingDirectory : Path)
    (h : ∀ name, rules'.verdict name false = rules.verdict name false) :
    (Collector.collect ⟨root, workingDirectory, rules', false⟩ disk []).files =
      (Collector.collect ⟨root, workingDirectory, rules, false⟩ disk []).files := by
  apply Candidate.eq_of_mem_iff pairwise_files pairwise_files
  intro f
  constructor
  · intro hf
    exact files_subset_of_excludes hc hd workingDirectory (fun name hx => by rwa [h]) hf
  · intro hf
    exact files_subset_of_excludes hc hd workingDirectory (fun name hx => by rwa [← h]) hf

/-- A rule text that is put in anywhere moves the collection of a whole tree one way only. With an exclusion
nothing is kept that was not kept without it, with a negation everything is kept that was kept without it. A
text that is no rule, or that stands again further back, changes nothing. -/
theorem files_insert (workingDirectory : Path) (front back : List Text) (text : Text) :
    let files texts :=
      (Collector.collect ⟨root, workingDirectory, Ruleset.ofTexts texts, false⟩ disk []).files
    (∀ r, Rule.compile text = .ok r → r.negated = false →
        files (front ++ [text] ++ back) ⊆ files (front ++ back)) ∧
      (∀ r, Rule.compile text = .ok r → r.negated = true →
        files (front ++ back) ⊆ files (front ++ [text] ++ back)) ∧
      ((∀ r, Rule.compile text ≠ .ok r) ∨ text ∈ back →
        files (front ++ [text] ++ back) = files (front ++ back)) := by
  intro files
  refine ⟨fun r hr hn => ?_, fun r hr hn => ?_, fun h => ?_⟩
  · exact files_subset_of_excludes hc hd _ fun name => Ruleset.isExcluded_insert_exclusion hr hn
  · exact files_subset_of_excludes hc hd _ fun name => Ruleset.isExcluded_of_insert_negation hr hn
  · exact files_eq_of_verdicts hc hd _ fun name => Ruleset.verdict_insert_of_overruled h

end

/-- A negation between two exclusions turns off pruning and brings back a file that one of them left out. -/
theorem files_insert_linkedTree :
    let root := pathOf [Utf8.ofString "w"]
    let inner : Candidate := ⟨pathOf [Utf8.ofString "w", Utf8.ofString "a", Utf8.ofString "b"], "a/b".toList⟩
    let files texts := (Collector.collect ⟨root, root, Ruleset.ofTexts texts, false⟩ linkedTree []).files
    linkedTree.canonical root = .ok root ∧ linkedTree.isDirectory root = true ∧
      (∃ r, Rule.compile "!a/b".toList = .ok r ∧ r.negated = true) ∧
      files ["/a/".toList, "**/*-".toList] ⊆ files ["/a/".toList, "!a/b".toList, "**/*-".toList] ∧
      inner ∉ files ["/a/".toList, "**/*-".toList] ∧
      inner ∈ files ["/a/".toList, "!a/b".toList, "**/*-".toList] := by
  intro root inner files
  have hc : linkedTree.canonical root = .ok root := canonical_pathOf rfl
  have hd : linkedTree.isDirectory root = true := isDirectory_pathOf rfl
  have hr : Rule.compile "!a/b".toList = .ok ⟨"!a/b".toList, true, false,
      "a/b".toList.map fun c => .single (.literal c)⟩ := by
    decide +kernel
  have hmem : ∀ texts, inner ∈ files texts ↔
      ((Ruleset.ofTexts texts).verdict "a/b".toList false).isExcluded = false := by
    intro texts
    have hapart := tellsApart_linkedTree (c := ⟨root, root, Ruleset.ofTexts texts, false⟩) rfl rfl
    dsimp only [files]
    rw [files_collect, hapart.mem_settle_iff, mem_letThrough_wholeTree_iff rfl rfl at?_linkedTree]
    constructor
    · rintro ⟨_, ⟨-, -, hx⟩, hinner⟩
      rwa [← hinner] at hx
    · exact fun hx => ⟨[Utf8.ofString "a", Utf8.ofString "b"], ⟨by simp, ⟨_, rfl, .inl rfl⟩, hx⟩, by decide⟩
  obtain ⟨-, hnegation, -⟩ := files_insert hc hd root ["/a/".toList] ["**/*-".toList] "!a/b".toList
  refine ⟨hc, hd, ⟨_, hr, rfl⟩, hnegation _ hr rfl, ?_, ?_⟩
  · rw [hmem]
    decide +kernel
  · rw [hmem]
    decide +kernel

end Folio.Collector
