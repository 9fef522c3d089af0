import Folio.Proofs.Text.Lines
import Folio.Rule.Gather

/-!
# Rules of whole files

A file is read line by line, and each line is trimmed before anything is read from it. So a text behind a
newline adds its rules to those of the text in front, a carriage return in front of a newline says nothing,
and extra lines count like the lines of an exclusion file at the root.
-/
namespace Folio

variable {dir a b t line line' : Text} {lines : List Text}

theorem ruleOfLine?_congr (h : Text.trim line' = Text.trim line) :
    ruleOfLine? dir line' = ruleOfLine? dir line := by
  rw [ruleOfLine?, ruleOfLine?, Line.read?, Line.read?, h]

theorem rulesOfFile_append (dir a b : Text) :
    rulesOfFile dir (a ++ '\n' :: b) = rulesOfFile dir a ++ rulesOfFile dir b := by
  rw [rulesOfFile, List.splitOn_append_cons_self, List.filterMap_append]
  rfl

theorem rulesOfFile_nil (dir : Text) : rulesOfFile dir [] = [] := rfl

theorem rulesOfFile_reended (dir : Text) (h : Text.Reended a b) : rulesOfFile dir b = rulesOfFile dir a := by
  rw [rulesOfFile, rulesOfFile]
  have hlines := h.forall₂_splitOn
  generalize a.splitOn '\n' = front at hlines
  generalize b.splitOn '\n' = back at hlines
  induction hlines with
  | nil => rfl
  | cons hfirst _ ih => rw [List.filterMap_cons, List.filterMap_cons, ruleOfLine?_congr hfirst.trim_eq, ih]

theorem rulesOfFile_intercalate (dir : Text) (h : ∀ line ∈ lines, '\n' ∉ line) :
    rulesOfFile dir (['\n'].intercalate lines) = lines.filterMap (ruleOfLine? dir) := by
  by_cases hne : lines = []
  · subst hne
    rfl
  · rw [rulesOfFile, List.splitOn_intercalate '\n' h hne]

/-- A newline behind the last line adds no rule. -/
theorem rulesOfFile_flatMap (dir : Text) (h : ∀ line ∈ lines, '\n' ∉ line) :
    rulesOfFile dir (lines.flatMap (· ++ ['\n'])) = lines.filterMap (ruleOfLine? dir) := by
  by_cases hne : lines = []
  · subst hne
    rfl
  · rw [Text.flatMap_newline hne, rulesOfFile_append, rulesOfFile_nil, List.append_nil, rulesOfFile_intercalate dir h]

theorem rulesOfFile_of_hasLines (dir : Text) (h : ∀ line ∈ lines, '\n' ∉ line) (ht : Text.HasLines lines t) :
    rulesOfFile dir t = lines.filterMap (ruleOfLine? dir) := by
  rcases ht with ht | ht
  · rw [rulesOfFile_reended dir ht, rulesOfFile_intercalate dir h]
  · rw [rulesOfFile_reended dir ht, rulesOfFile_flatMap dir h]

/-- Exclusion files can be joined by a newline and their lines ended either way. Extra lines make the same
ruleset as a file at the root that has these lines, with the same reports on what is no rule. -/
theorem rulesOfFile_joined (dir : Text) :
    (∀ a b, rulesOfFile dir (a ++ '\n' :: b) = rulesOfFile dir a ++ rulesOfFile dir b) ∧
      (∀ a b, Text.Reended a b → rulesOfFile dir b = rulesOfFile dir a) ∧
      ∀ extra found content, (∀ line ∈ extra, '\n' ∉ line) → Text.HasLines extra content →
        let texts := rulesOfFile Path.rootName content ++ Ruleset.versionControl :: found
        Ruleset.ofTexts (Ruleset.ordered extra found) = Ruleset.ofTexts texts ∧
          Ruleset.reports (Ruleset.ordered extra found) = Ruleset.reports texts := by
  refine ⟨rulesOfFile_append dir, fun a b => rulesOfFile_reended dir, ?_⟩
  intro extra found content hextra hcontent texts
  have htexts : Ruleset.ordered extra found = texts := by
    rw [Ruleset.ordered, ← rulesOfFile_of_hasLines Path.rootName hextra hcontent]
  rw [htexts]
  exact ⟨rfl, rfl⟩

theorem rulesOfFile_joined_returns :
    let extra := ["! /a".toList, "# c".toList, "***".toList]
    let content := "! /a\r\n# c\n***\n".toList
    (∀ line ∈ extra, '\n' ∉ line) ∧ Text.HasLines extra content ∧
      rulesOfFile "d".toList content = ["!d/a".toList, "d/**/***".toList] ∧
      rulesOfFile "d".toList content = rulesOfFile "d".toList "! /a\n# c\n***\n".toList ∧
      Ruleset.ofTexts (Ruleset.ordered extra ["b".toList]) =
        Ruleset.ofTexts ["!a".toList, "**/***".toList, "**/.git".toList, "b".toList] := by
  intro extra content
  have hextra : ∀ line ∈ extra, '\n' ∉ line := by decide
  have hreended : Text.Reended "! /a\n# c\n***\n".toList content :=
    .keep _ (.keep _ (.keep _ (.keep _ (.reend (.refl _)))))
  have hcontent : Text.HasLines extra content := .inr hreended
  obtain ⟨-, hends, hrules⟩ := rulesOfFile_joined "d".toList
  exact ⟨hextra, hcontent, by decide, hends _ _ hreended, (hrules _ _ _ hextra hcontent).1⟩

end Folio
