import Folio.Rule.Ruleset
import Folio.Proofs.Rule.Parts
import Folio.Proofs.Rule.Segments

/-!
# What a line of an exclusion file means

A line without classes is a list of segments. The rule that the line stands for applies to a path exactly
when the segments cover the names below the directory of the file, down to the path itself or to a
directory on the way to it.
-/
namespace Folio.Line
open Segment

def content (line : Text) : Text :=
  Text.trim ((Text.afterFirst? '!' (Text.trim line)).getD (Text.trim line))

def unanchored (line : Text) : Text := (Text.afterFirst? '/' (content line)).getD (content line)

def body (line : Text) : Text := (Text.beforeLast? '/' (unanchored line)).getD (unanchored line)

/-- The segments of a line. A single segment that is not anchored stands at any depth. -/
def segments (line : Text) : List Text :=
  if (content line).head? ≠ some '/' ∧ '/' ∉ body line then [Rule.anyDirectories, body line]
  else (body line).splitOn '/'

/-- The names on the way from the root to a directory that is named relative to it. -/
def directoryNames (dir : Text) : List Text := if dir = Path.rootName then [] else dir.splitOn '/'

/-- A line whose segments are all there: it has no class, and a backslash only in front of a character
of the same segment. -/
structure IsRegular (line : Text) : Prop where
  no_class : '[' ∉ content line
  full : [] ∉ (body line).splitOn '/'
  escapes : ∀ s ∈ (body line).splitOn '/', s.getLast? ≠ some '\\'
  unmarked : (unanchored line).head? ≠ some '!'

/-- The segments of a line in a file of the directory `dir` cover the names of `path`, or those of a
directory on the way to it. A line that ends in a slash is about directories. -/
def Reaches (least : Nat) (dir line path : Text) (isDirectory : Bool) : Prop :=
  ∃ names below, names ≠ [] ∧ names <+: path.splitOn '/' ∧
    (names = path.splitOn '/' → (content line).getLast? ≠ some '/' ∨ isDirectory = true) ∧
    names = directoryNames dir ++ below ∧ Covers least (segments line) below

variable {line dir text : Text}

theorem marked_eq (c : Char) (t : Text) :
    marked c t = (decide (t.head? = some c), (Text.afterFirst? c t).getD t) := by
  cases t with
  | nil => simp [marked, Text.afterFirst?]
  | cons d t => by_cases h : d = c <;> simp [marked, Text.afterFirst?, h]

theorem eq_of_read? {l : Line} (h : read? line = some l) :
    l.anchored = decide ((content line).head? = some '/') ∧ l.pattern = unanchored line := by
  unfold read? at h
  simp only [marked_eq] at h
  split at h
  · simp at h
  · split at h
    · simp at h
    · cases h
      exact ⟨rfl, rfl⟩

theorem unanchored_eq (line : Text) :
    unanchored line = body line ++ if (unanchored line).getLast? = some '/' then ['/'] else [] := by
  unfold body
  cases hb : Text.beforeLast? '/' (unanchored line) with
  | none =>
    have hlast : (unanchored line).getLast? ≠ some '/' := by
      intro hl
      simp [Text.beforeLast?, hl] at hb
    simp [hlast]
  | some front =>
    rw [Text.beforeLast?_eq_some_iff] at hb
    simp [hb]

theorem segments_ne_nil (line : Text) : segments line ≠ [] := by
  unfold segments
  split <;> simp

theorem intercalate_segments {l : Line} (h : read? line = some l) :
    ['/'].intercalate (segments line) = (if l.tied then [] else anyDepth) ++ body line := by
  obtain ⟨ha, hp⟩ := eq_of_read? h
  have htied : l.tied = (decide ((content line).head? = some '/') || (body line).contains '/') := by
    rw [tied, ha, hp, body]
  by_cases hc : (content line).head? ≠ some '/' ∧ '/' ∉ body line
  · rw [segments, if_pos hc, htied]
    simp [hc.1, hc.2, Rule.anyDirectories, anyDepth]
  · rw [segments, if_neg hc, htied, List.intercalate_splitOn]
    by_cases hs : (content line).head? = some '/'
    · simp [hs]
    · have hm : '/' ∈ body line := Decidable.byContradiction fun hm => hc ⟨hs, hm⟩
      simp [hm]

/-- Behind its negation mark a rule text is the names of its directory and the segments of its line, and
the slash that the line may end in. -/
theorem ruleText_eq {l : Line} (h : read? line = some l) :
    l.ruleText dir = (if l.negated then ['!'] else []) ++
      (['/'].intercalate (directoryNames dir ++ segments line) ++
        if (unanchored line).getLast? = some '/' then ['/'] else []) := by
  have hp : l.pattern = _ := (eq_of_read? h).2.trans (unanchored_eq line)
  rw [ruleText, hp]
  by_cases hd : dir = Path.rootName
  · simp [directoryNames, hd, intercalate_segments h]
  · rw [directoryNames, if_neg hd, if_neg hd,
      Text.intercalate_append (List.splitOn_ne_nil '/' dir) (segments_ne_nil line),
      List.intercalate_splitOn, intercalate_segments h]
    simp

theorem mem_segments {s : Text} (hs : s ∈ segments line) :
    s = Rule.anyDirectories ∨ s ∈ (body line).splitOn '/' := by
  unfold segments at hs
  split at hs
  next hc =>
    rw [List.splitOn_eq_singleton hc.2]
    simpa using hs
  next => exact .inr hs

theorem isRegular_of_isPlainName {n : Text} (hslash : '/' ∉ n) (hn : IsPlainName n) :
    Segment.IsRegular n := by
  refine ⟨hslash, fun hm => (hn.2 _ hm).2.2.1 rfl, fun hl => ?_⟩
  exact (hn.2 _ (List.mem_of_getLast? hl)).2.2.2.2.1 rfl

theorem notMem_directoryNames {n : Text} (hn : n ∈ directoryNames dir) : '/' ∉ n := by
  unfold directoryNames at hn
  split at hn
  · simp at hn
  · exact Text.notMem_of_mem_splitOn hn

theorem body_subset (line : Text) : body line ⊆ content line := by
  intro c hc
  have hu : c ∈ unanchored line := by
    rw [unanchored_eq]
    simp [hc]
  unfold unanchored at hu
  cases ha : Text.afterFirst? '/' (content line) with
  | none => simpa [ha] using hu
  | some rest =>
    rw [Text.afterFirst?_eq_some_iff.1 ha]
    simp only [ha, Option.getD_some] at hu
    simp [hu]

theorem getLast?_unanchored (h : unanchored line ≠ []) :
    (unanchored line).getLast? = (content line).getLast? := by
  unfold unanchored at h ⊢
  cases ha : Text.afterFirst? '/' (content line) with
  | none => rfl
  | some rest =>
    simp only [ha, Option.getD_some] at h ⊢
    obtain ⟨c, rest, rfl⟩ := List.exists_cons_of_ne_nil h
    rw [Text.afterFirst?_eq_some_iff.1 ha, List.getLast?_cons_cons]

section
variable (hr : IsRegular line) (hd : ∀ n ∈ directoryNames dir, IsPlainName n)
include hr

theorem head?_segments_ne : (['/'].intercalate (segments line)).head? ≠ some '!' := by
  unfold segments
  split
  · simp [Rule.anyDirectories]
  · rw [List.intercalate_splitOn]
    have hb : body line ≠ [] := by
      intro hb
      have hf := hr.full
      simp [hb] at hf
    obtain ⟨c, rest, hc⟩ := List.exists_cons_of_ne_nil hb
    have hu := hr.unmarked
    rw [unanchored_eq, hc] at hu
    simpa [hc] using hu

include hd

theorem isRegular_of_mem {s : Text} (hs : s ∈ directoryNames dir ++ segments line) :
    Segment.IsRegular s := by
  rcases List.mem_append.1 hs with hs | hs
  · exact isRegular_of_isPlainName (notMem_directoryNames hs) (hd s hs)
  · rcases mem_segments hs with rfl | hs
    · exact ⟨by decide, by decide, by decide⟩
    · refine ⟨Text.notMem_of_mem_splitOn hs, fun hm => ?_, hr.escapes s hs⟩
      exact hr.no_class (body_subset line (Text.subset_of_mem_splitOn hs hm))

theorem nil_notMem : [] ∉ directoryNames dir ++ segments line := by
  intro hs
  rcases List.mem_append.1 hs with hs | hs
  · exact (hd [] hs).1 rfl
  · rcases mem_segments hs with hs | hs
    · simp [Rule.anyDirectories] at hs
    · exact hr.full hs

theorem head?_names_ne : (['/'].intercalate (directoryNames dir ++ segments line)).head? ≠ some '!' := by
  cases hn : directoryNames dir with
  | nil => exact head?_segments_ne hr
  | cons n names =>
    have hplain := hd n (by simp [hn])
    rw [List.cons_append, Text.head?_intercalate_cons hplain.1]
    intro hh
    exact (hplain.2 '!' (List.mem_of_mem_head? hh)).2.2.2.2.2 rfl

theorem head?_names_ne_slash :
    (['/'].intercalate (directoryNames dir ++ segments line)).head? ≠ some '/' := by
  have hne : directoryNames dir ++ segments line ≠ [] := by simp [segments_ne_nil]
  obtain ⟨s, rest, hs⟩ := List.exists_cons_of_ne_nil hne
  have hmem : s ∈ directoryNames dir ++ segments line := by simp [hs]
  have hsn : s ≠ [] := fun he => nil_notMem hr hd (he ▸ hmem)
  rw [hs, Text.head?_intercalate_cons hsn]
  intro hh
  exact (isRegular_of_mem hr hd hmem).no_slash (List.mem_of_mem_head? hh)

theorem compile_ruleText {l : Line} (h : read? line = some l) :
    Rule.compile (l.ruleText dir) = .ok ⟨l.ruleText dir, l.negated,
      (content line).getLast? = some '/', allTokens (directoryNames dir ++ segments line)⟩ := by
  have hall : directoryNames dir ++ segments line ≠ [] := by simp [segments_ne_nil]
  have hslash : ∀ s ∈ directoryNames dir ++ segments line, '/' ∉ s :=
    fun s hs => (isRegular_of_mem hr hd hs).no_slash
  have hnil := nil_notMem hr hd
  have hne : ['/'].intercalate (directoryNames dir ++ segments line) ≠ [] :=
    fun he => hall ((Text.intercalate_eq_nil_iff hnil).1 he)
  have hu : unanchored line ≠ [] := (eq_of_read? h).2 ▸ read?_pattern_ne_nil h
  have hparts := Rule.parts_mark_slash l.negated ((unanchored line).getLast? = some '/')
    (head?_names_ne hr hd) (head?_names_ne_slash hr hd) (Text.getLast?_intercalate_ne hslash hnil) hne
  rw [← ruleText_eq h] at hparts
  have hparse : Glob.parse (Rule.spell (['/'].intercalate (directoryNames dir ++ segments line))) =
      .ok (allTokens (directoryNames dir ++ segments line)) := by
    rw [spell_intercalate hslash hall]
    exact reads_spelling (fun s hs => opensClass_eq_false (isRegular_of_mem hr hd hs).no_class) 0
  rw [Rule.compile, hparts]
  simp [hne, hparse, getLast?_unanchored hu]

end

section
variable {r : Rule} {names : List Text} {isDirectory : Bool}

theorem applies_iff_covers {segments : List Text} (ht : r.tokens = allTokens segments)
    (hs : ∀ s ∈ segments, Segment.IsRegular s) (hn : [] ∉ segments) (hslash : ∀ n ∈ names, '/' ∉ n)
    (hempty : [] ∉ names) (hne : names ≠ []) :
    r.applies (['/'].intercalate names) isDirectory = true ↔ ∃ way, way ≠ [] ∧ way <+: names ∧
      (way = names → r.directoriesOnly = false ∨ isDirectory = true) ∧ Covers 1 segments way := by
  have hself := accepts_allTokens_iff hs hn hslash hempty hne
  rw [Rule.applies, ht, Bool.or_eq_true, Bool.and_eq_true, hself, List.any_eq_true]
  constructor
  · intro h
    rcases h with ⟨hdir, h⟩ | ⟨t, hm, h⟩
    · exact ⟨names, hne, List.prefix_rfl, fun _ => by simpa using hdir, h⟩
    · obtain ⟨front, back, hf, hb, rfl, rfl⟩ := (Rule.mem_ancestors_intercalate hslash hempty).1 hm
      have hfront := accepts_allTokens_iff hs hn (fun n hn => hslash n (by simp [hn]))
        (fun hn => hempty (by simp [hn])) hf
      exact ⟨front, hf, List.prefix_append front back,
        fun he => absurd (List.self_eq_append_right.1 he) hb, hfront.1 h⟩
  · intro h
    obtain ⟨way, hw, ⟨back, rfl⟩, hdir, h⟩ := h
    by_cases hb : back = []
    · subst hb
      rw [List.append_nil] at hdir ⊢
      exact .inl ⟨by simpa using hdir rfl, h⟩
    · have hway := accepts_allTokens_iff hs hn (fun n hn => hslash n (by simp [hn]))
        (fun hn => hempty (by simp [hn])) hw
      refine .inr ⟨_, ?_, hway.2 h⟩
      exact (Rule.mem_ancestors_intercalate hslash hempty).2 ⟨way, back, hw, hb, rfl, rfl⟩

end

/-- A regular line in a file of a directory with plain names stands for a rule that compiles, and the rule
applies to a path exactly when the segments of the line reach the path from the directory. -/
theorem applies_iff_reaches {line dir text : Text} (ht : ruleOfLine? dir line = some text)
    (hr : IsRegular line) (hd : ∀ n ∈ directoryNames dir, IsPlainName n) :
    ∃ rule, Rule.compile text = .ok rule ∧
      ∀ (path : Text) (isDirectory : Bool), [] ∉ path.splitOn '/' →
        (rule.applies path isDirectory = true ↔ Reaches 1 dir line path isDirectory) := by
  obtain ⟨l, hl, rfl⟩ := Option.map_eq_some_iff.1 ht
  have hc := compile_ruleText hr hd hl
  generalize hrule : Rule.mk _ _ _ _ = rule at hc
  have htokens : rule.tokens = allTokens (directoryNames dir ++ segments line) := by rw [← hrule]
  have hslash : rule.directoriesOnly = decide ((content line).getLast? = some '/') := by rw [← hrule]
  refine ⟨rule, hc, ?_⟩
  intro path isDirectory hp
  have hnames : ∀ n ∈ path.splitOn '/', '/' ∉ n := fun n hn => Text.notMem_of_mem_splitOn hn
  have hpath : rule.applies path isDirectory =
      rule.applies (['/'].intercalate (path.splitOn '/')) isDirectory := by
    rw [List.intercalate_splitOn]
  rw [hpath, applies_iff_covers htokens (fun s hs => isRegular_of_mem hr hd hs) (nil_notMem hr hd)
    hnames hp (List.splitOn_ne_nil '/' path), hslash, Reaches]
  simp only [covers_append_plain_iff hd, decide_eq_false_iff_not]
  constructor
  · intro h
    obtain ⟨way, hw, hpre, hdir, below, he, h⟩ := h
    exact ⟨way, below, hw, hpre, hdir, he, h⟩
  · intro h
    obtain ⟨way, below, hw, hpre, hdir, he, h⟩ := h
    exact ⟨way, hw, hpre, hdir, below, he, h⟩

theorem applies_iff_reaches_nested :
    ruleOfLine? "a/b".toList " !docs/**/x\\*?*/ ".toList = some "!a/b/docs/**/x\\*?*/".toList ∧
      IsRegular " !docs/**/x\\*?*/ ".toList ∧ (∀ n ∈ directoryNames "a/b".toList, IsPlainName n) ∧
      [] ∉ "a/b/docs/p/q/x*yz".toList.splitOn '/' ∧
      ∃ rule, Rule.compile "!a/b/docs/**/x\\*?*/".toList = .ok rule ∧
        (rule.applies "a/b/docs/p/q/x*yz".toList true = true ↔
          Reaches 1 "a/b".toList " !docs/**/x\\*?*/ ".toList "a/b/docs/p/q/x*yz".toList true) := by
  have ht : ruleOfLine? "a/b".toList " !docs/**/x\\*?*/ ".toList =
      some "!a/b/docs/**/x\\*?*/".toList := by decide
  have hr : IsRegular " !docs/**/x\\*?*/ ".toList :=
    ⟨by decide, by decide, by decide, by decide⟩
  have hnames : directoryNames "a/b".toList = [['a'], ['b']] := by decide
  have hd : ∀ n ∈ directoryNames "a/b".toList, IsPlainName n := by
    rw [hnames]
    simp [IsPlainName]
  have hp : [] ∉ "a/b/docs/p/q/x*yz".toList.splitOn '/' := by decide
  obtain ⟨rule, hc, hiff⟩ := applies_iff_reaches ht hr hd
  exact ⟨ht, hr, hd, hp, rule, hc, hiff _ true hp⟩

/-- Two stars at the end of a line take no name less than one: with none the line would reach the
directory in front of them. -/
theorem not_applies_without_name :
    ruleOfLine? Path.rootName "a/**".toList = some "a/**".toList ∧ IsRegular "a/**".toList ∧
      (∀ n ∈ directoryNames Path.rootName, IsPlainName n) ∧ [] ∉ "a".toList.splitOn '/' ∧
      Reaches 0 Path.rootName "a/**".toList "a".toList false ∧
      ∃ rule, Rule.compile "a/**".toList = .ok rule ∧ rule.applies "a".toList false = false := by
  have hr : IsRegular "a/**".toList := ⟨by decide, by decide, by decide, by decide⟩
  have hd : ∀ n ∈ directoryNames Path.rootName, IsPlainName n := by simp [directoryNames]
  have hl : read? "a/**".toList = some ⟨false, false, "a/**".toList⟩ := by decide
  have hsegments : segments "a/**".toList = ["a".toList, Rule.anyDirectories] := by decide
  have hcovers : Covers 0 (segments "a/**".toList) ["a".toList] := by
    rw [hsegments]
    exact .name (by decide) (.plain (by decide) .nil) (.any [] (by simp) .nil)
  refine ⟨by decide, hr, hd, by decide, ?_, _, compile_ruleText hr hd hl, by decide⟩
  exact ⟨["a".toList], ["a".toList], by decide, by decide, fun _ => .inl (by decide), by decide, hcovers⟩

end Folio.Line
