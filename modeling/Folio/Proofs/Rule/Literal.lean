import Folio.Proofs.Rule.Pieces

/-!
# Literal lines

A line without slashes and without wildcards names one name. The rule of such a line at the root applies to
a path when this name is on it. The one exception is a backslash alone, which names nothing and leaves the
globstar in front of it.
-/
namespace Folio.Segment

/-- The characters of a segment that are neither escaped nor escape another. -/
def bare : Text → Text
  | [] => []
  | ['\\'] => []
  | '\\' :: _ :: rest => bare rest
  | c :: rest => c :: bare rest

/-- A segment with each escaped character as itself. A backslash with nothing behind it is dropped. -/
def unescape : Text → Text
  | [] => []
  | ['\\'] => []
  | '\\' :: c :: rest => c :: unescape rest
  | c :: rest => c :: unescape rest

/-- No character stands for others: there is no star, no question mark and no bracket but escaped ones. -/
def IsWildless (s : Text) : Prop := ∀ c ∈ bare s, c ≠ '*' ∧ c ≠ '?' ∧ c ≠ '['

variable {s n : Text} {ls : List Letter}

theorem unescape_eq_nil_iff : unescape s = [] ↔ s = [] ∨ s = ['\\'] := by
  fun_cases unescape s <;> simp_all

theorem exists_letters (h : IsWildless s) :
    ∃ ls : List Letter, pieces? s = some (ls.map .letter) ∧ ls.map Letter.char = unescape s := by
  fun_induction unescape s with
  | case1 => exact ⟨[], by simp [pieces?], rfl⟩
  | case2 => exact ⟨[], by simp [pieces?], rfl⟩
  | case3 c rest ih =>
    obtain ⟨ls, hp, hc⟩ := ih h
    exact ⟨⟨true, c⟩ :: ls, by simp [pieces?, hp], by simp [hc]⟩
  | case4 c rest h₁ h₂ ih =>
    have hbare : bare (c :: rest) = c :: bare rest := by
      rw [bare]
      · exact h₁
      · exact h₂
    obtain ⟨⟨hstar, hany, hopen⟩, hrest⟩ : (c ≠ '*' ∧ c ≠ '?' ∧ c ≠ '[') ∧ IsWildless rest := by
      simpa [IsWildless, hbare] using h
    obtain ⟨ls, hp, hc⟩ := ih hrest
    refine ⟨⟨false, c⟩ :: ls, ?_, by simp [hc]⟩
    rw [pieces?, hp]
    · rfl
    all_goals simp_all

theorem matches_letters_iff : Matches (ls.map .letter) n ↔ n = ls.map Letter.char := by
  induction ls generalizing n with
  | nil => exact matches_nil_iff
  | cons l ls ih =>
    rw [List.map_cons, matches_one_iff (by simp)]
    simp only [ih, Piece.admits, decide_eq_true_eq, List.map_cons]
    constructor
    · intro h
      obtain ⟨c, rest, rfl, rfl, rfl⟩ := h
      rfl
    · rintro rfl
      exact ⟨_, _, rfl, rfl, rfl⟩

end Folio.Segment

namespace Folio.Line
open Segment Glob

/-- The rule of a line without slashes and wildcards applies to a path exactly when the unescaped line is a
name on it, or the line is a backslash alone. -/
theorem applies_iff_unescape_mem {line text : Text} (ht : ruleOfLine? Path.rootName line = some text)
    (hslash : '/' ∉ content line) (hwild : IsWildless (content line)) :
    ∃ rule, Rule.compile text = .ok rule ∧
      ∀ (path : Text) (isDirectory : Bool), [] ∉ path.splitOn '/' →
        (rule.applies path isDirectory = true ↔
          content line = ['\\'] ∨ unescape (content line) ∈ path.splitOn '/') := by
  obtain ⟨ls, hp, hc⟩ := exists_letters hwild
  obtain ⟨l, hl, -⟩ := Option.map_eq_some_iff.1 ht
  have hnil : ls.map Piece.letter = [] ↔ content line = ['\\'] := by
    rw [List.map_eq_nil_iff, ← List.map_eq_nil_iff (f := Letter.char), hc, unescape_eq_nil_iff]
    simp [content_ne_nil hl]
  simpa [hnil, matches_letters_iff, hc] using exists_compile_pieces ht hslash hp (by simp)

theorem applies_iff_unescape_mem_trailing :
    ruleOfLine? Path.rootName " !\\*x\\\\y\\ ".toList = some "!**/\\*x\\\\y\\".toList ∧
      '/' ∉ content " !\\*x\\\\y\\ ".toList ∧ IsWildless (content " !\\*x\\\\y\\ ".toList) ∧
      unescape (content " !\\*x\\\\y\\ ".toList) = "*x\\y".toList ∧
      [] ∉ "a/*x\\y/b".toList.splitOn '/' ∧
      ∃ rule, Rule.compile "!**/\\*x\\\\y\\".toList = .ok rule ∧
        (rule.applies "a/*x\\y/b".toList false = true ↔
          content " !\\*x\\\\y\\ ".toList = ['\\'] ∨
            unescape (content " !\\*x\\\\y\\ ".toList) ∈ "a/*x\\y/b".toList.splitOn '/') := by
  have ht : ruleOfLine? Path.rootName " !\\*x\\\\y\\ ".toList = some "!**/\\*x\\\\y\\".toList := by decide
  have hslash : '/' ∉ content " !\\*x\\\\y\\ ".toList := by decide
  have hbare : bare (content " !\\*x\\\\y\\ ".toList) = ['x', 'y'] := by decide
  have hwild : IsWildless (content " !\\*x\\\\y\\ ".toList) := by
    rw [IsWildless, hbare]
    simp
  have hempty : [] ∉ "a/*x\\y/b".toList.splitOn '/' := by decide
  obtain ⟨rule, hc, hiff⟩ := applies_iff_unescape_mem ht hslash hwild
  exact ⟨ht, hslash, hwild, by decide, hempty, rule, hc, hiff _ false hempty⟩

/-- A backslash alone leaves out everything, although it names nothing. -/
theorem applies_backslash_alone :
    ruleOfLine? Path.rootName "\\".toList = some "**/\\".toList ∧ '/' ∉ content "\\".toList ∧
      IsWildless (content "\\".toList) ∧ [] ∉ "x".toList.splitOn '/' ∧
      unescape (content "\\".toList) ∉ "x".toList.splitOn '/' ∧
      ∃ rule, Rule.compile "**/\\".toList = .ok rule ∧ rule.applies "x".toList false = true := by
  have hbare : bare (content "\\".toList) = [] := by decide
  have hwild : IsWildless (content "\\".toList) := by
    rw [IsWildless, hbare]
    simp
  have hc : Rule.compile "**/\\".toList = .ok ⟨"**/\\".toList, false, false, [.globstar]⟩ := by
    decide +kernel
  exact ⟨by decide, by decide, hwild, by decide, by decide, _, hc, by decide⟩

end Folio.Line
