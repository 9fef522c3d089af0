import Folio.Proofs.Rule.Meaning
import Folio.Proofs.Text.Trim

/-!
# Negations

A rule is a negation when its text begins with the negation mark. A line writes this mark in front of its
rule text, but a directory name, or a pattern that follows an anchor, can bring a mark of its own there.
-/
namespace Folio.Line
variable {dir line text : Text} {l : Line} {rule : Rule}

theorem negated_of_compile (h : Rule.compile text = .ok rule) :
    rule.negated = decide (text.head? = some '!') := by
  unfold Rule.compile at h
  simp only at h
  split at h
  · cases h
  · split at h
    next =>
      cases h
      rfl
    next => cases h

theorem negated_of_read? (h : read? line = some l) :
    l.negated = decide ((Text.trim line).head? = some '!') := by
  unfold read? at h
  simp only [marked_eq] at h
  split at h
  · cases h
  · split at h
    · cases h
    · cases h
      rfl

theorem content_eq_trim (hm : (Text.trim line).head? ≠ some '!') : content line = Text.trim line := by
  rw [content, Text.afterFirst?_eq_none_iff.2 hm, Option.getD_none, Text.trim_trim]

/-- A pattern that begins with a mark stands behind an anchor, or the line has a mark itself. -/
theorem head?_pattern_iff (h : read? line = some l) (hm : (Text.trim line).head? ≠ some '!') :
    l.pattern.head? = some '!' ↔ ['/', '!'] <+: Text.trim line := by
  rw [(eq_of_read? h).2, unanchored, content_eq_trim hm]
  cases ht : Text.afterFirst? '/' (Text.trim line) with
  | none =>
    have hslash := Text.afterFirst?_eq_none_iff.1 ht
    constructor
    · intro hp
      exact absurd hp hm
    · intro hp
      obtain ⟨rest, hr⟩ := hp
      simp [← hr] at hslash
  | some rest =>
    rw [Text.afterFirst?_eq_some_iff.1 ht]
    cases rest <;> simp [eq_comm]

theorem head?_ruleText_iff (h : read? line = some l) (hm : (Text.trim line).head? ≠ some '!') :
    (l.ruleText dir).head? = some '!' ↔
      if dir = Path.rootName then ['/', '!'] <+: Text.trim line else dir.head? = some '!' := by
  have hn : l.negated = false := by simpa [hm] using negated_of_read? h
  by_cases hd : dir = Path.rootName
  · rw [if_pos hd, ← head?_pattern_iff h hm]
    cases ht : l.tied with
    | true => simp [ruleText, hn, hd, ht]
    | false =>
      -- an anchored pattern is tied, so this one is the line itself
      have ha : l.anchored = false := by
        simp only [tied, Bool.or_eq_false_iff] at ht
        exact ht.1
      have hslash : (content line).head? ≠ some '/' := by simpa [(eq_of_read? h).1] using ha
      have hp : l.pattern.head? ≠ some '!' := by
        rw [(eq_of_read? h).2, unanchored, Text.afterFirst?_eq_none_iff.2 hslash, Option.getD_none,
          content_eq_trim hm]
        exact hm
      simp [ruleText, hn, hd, ht, anyDepth, hp]
  · cases dir with
    | nil => simp [ruleText, hn, Path.rootName]
    | cons c dir => simp [ruleText, hn, hd]

/-- The rule of a line is a negation exactly when the line begins with the mark, or when the mark begins
the name of its directory or, at the root, what an anchor is put in front of. -/
theorem negated_iff {dir line text : Text} {rule : Rule} (ht : ruleOfLine? dir line = some text)
    (hc : Rule.compile text = .ok rule) :
    rule.negated = true ↔ (Text.trim line).head? = some '!' ∨
      if dir = Path.rootName then ['/', '!'] <+: Text.trim line else dir.head? = some '!' := by
  obtain ⟨l, hl, rfl⟩ := Option.map_eq_some_iff.1 ht
  rw [negated_of_compile hc, decide_eq_true_eq]
  by_cases hm : (Text.trim line).head? = some '!'
  · have hn : l.negated = true := by simpa [hm] using negated_of_read? hl
    simp [ruleText, hn, hm]
  · rw [head?_ruleText_iff hl hm]
    simp [hm]

theorem negated_iff_marked :
    ruleOfLine? "src".toList " !x".toList = some "!src/**/x".toList ∧
      ∃ rule, Rule.compile "!src/**/x".toList = .ok rule ∧
        (rule.negated = true ↔ (Text.trim " !x".toList).head? = some '!' ∨
          if "src".toList = Path.rootName then ['/', '!'] <+: Text.trim " !x".toList
          else "src".toList.head? = some '!') := by
  have ht : ruleOfLine? "src".toList " !x".toList = some "!src/**/x".toList := by decide
  have hc : Rule.compile "!src/**/x".toList = .ok ⟨"!src/**/x".toList, true, false,
      "src/".toList.map (fun c => .single (.literal c)) ++ [.globstar, .single (.literal 'x')]⟩ := by
    decide +kernel
  exact ⟨ht, _, hc, negated_iff ht hc⟩

/-- Two lines without a mark that stand for negations: one behind an anchor, one in a directory whose name
begins with the mark. -/
theorem negated_without_mark :
    (ruleOfLine? Path.rootName "/!x.log".toList = some "!x.log".toList ∧
      (Text.trim "/!x.log".toList).head? ≠ some '!' ∧
      ∃ rule, Rule.compile "!x.log".toList = .ok rule ∧ rule.negated = true) ∧
    (ruleOfLine? "!a".toList "x".toList = some "!a/**/x".toList ∧
      (Text.trim "x".toList).head? ≠ some '!' ∧
      ∃ rule, Rule.compile "!a/**/x".toList = .ok rule ∧ rule.negated = true) := by
  refine ⟨⟨by decide, by decide, ?_⟩, by decide, by decide, ?_⟩
  · exact ⟨⟨"!x.log".toList, true, false, "x.log".toList.map fun c => .single (.literal c)⟩,
      by decide +kernel, rfl⟩
  · exact ⟨⟨"!a/**/x".toList, true, false, "a/".toList.map (fun c => .single (.literal c)) ++
      [.globstar, .single (.literal 'x')]⟩, by decide +kernel, rfl⟩

end Folio.Line
