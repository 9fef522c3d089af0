import Mathlib.Data.List.Induction
import Folio.Rule.Ruleset

/-!
# The last word

The rules of a ruleset overrule one another in their order: the last one that applies to a path decides,
and all that do not apply have no say. Without negations whatever excludes a directory excludes all below
it, so a directory that may be pruned hides nothing.
-/
namespace Folio.Ruleset
variable {s t : Ruleset} {texts : List Text} {path dir text : Text} {isDirectory : Bool} {v : Verdict}

/-- A verdict depends on the rules that apply, and on their order. -/
theorem verdict_congr (h : s.rules.filter (·.applies path isDirectory) =
    t.rules.filter (·.applies path isDirectory)) :
    s.verdict path isDirectory = t.verdict path isDirectory := by
  have hfind : ∀ u : Ruleset, u.rules.reverse.find? (·.applies path isDirectory) =
      (u.rules.filter (·.applies path isDirectory)).getLast? := by
    intro u
    rw [← List.head?_filter, List.filter_reverse, List.head?_reverse]
  rw [verdict, verdict, hfind, hfind, h]

/-- The text of a verdict is that of the last rule that applies. -/
theorem exists_last_of_excluded (h : s.verdict path isDirectory = .excluded text) :
    ∃ front r back, s.rules = front ++ r :: back ∧ r.text = text ∧ r.negated = false ∧
      r.applies path isDirectory = true ∧ ∀ later ∈ back, later.applies path isDirectory = false := by
  rw [verdict] at h
  split at h
  next r hfind =>
    obtain ⟨happlies, behind, front, hrules, hbehind⟩ := List.find?_eq_some_iff_append.1 hfind
    have hverdict : r.negated = false ∧ r.text = text := by
      rw [Rule.verdict] at h
      split at h
      · cases h
      next hn => exact ⟨by simpa using hn, Verdict.excluded.inj h⟩
    refine ⟨front.reverse, r, behind.reverse, ?_, hverdict.2, hverdict.1, happlies, ?_⟩
    · rw [List.reverse_eq_iff.1 hrules]
      simp
    · intro later hlater
      simpa using hbehind later (List.mem_reverse.1 hlater)
  next => cases h

def applicable (path : Text) (isDirectory : Bool) (texts : List Text) : List Rule :=
  (ofTexts texts).rules.filter (·.applies path isDirectory)

theorem applicable_append (front back : List Text) : applicable path isDirectory (front ++ back) =
    applicable path isDirectory front ++ applicable path isDirectory back := by
  simp [applicable, ofTexts]

theorem applicable_flatMap {α : Type} (order : List α) (texts : α → List Text) :
    applicable path isDirectory (order.flatMap texts) =
      order.flatMap fun a => applicable path isDirectory (texts a) := by
  induction order with
  | nil => rfl
  | cons a order ih => rw [List.flatMap_cons, applicable_append, ih, List.flatMap_cons]

/-- Found rules can be exchanged for others of which the same ones apply. -/
theorem verdict_ordered_congr {extra found found' : List Text}
    (h : applicable path isDirectory found = applicable path isDirectory found') :
    (ofTexts (ordered extra found)).verdict path isDirectory =
      (ofTexts (ordered extra found')).verdict path isDirectory := by
  have hordered : ∀ found, ordered extra found =
      (extra.filterMap (ruleOfLine? Path.rootName) ++ [versionControl]) ++ found := by
    simp [ordered]
  apply verdict_congr
  show applicable path isDirectory _ = applicable path isDirectory _
  rw [hordered, hordered, applicable_append, h, ← applicable_append]

section LastWord

def overrule (path : Text) (isDirectory : Bool) (v : Verdict) (text : Text) : Verdict :=
  match Rule.compile text with
  | .error _ => v
  | .ok r =>
    if r.applies path isDirectory then
      if r.negated then .reincluded text else .excluded text
    else v

def overruleByLine (path : Text) (isDirectory : Bool) (v : Verdict) (line : Text) : Verdict :=
  match ruleOfLine? Path.rootName line with
  | none => v
  | some text => overrule path isDirectory v text

/-- The verdict told forward: every path is included until an extra line, the rule on version control or a
found rule says otherwise, each of which overrules all before it. -/
def lastWord (path : Text) (isDirectory : Bool) (extra found : List Text) : Verdict :=
  let byLines := extra.foldl (overruleByLine path isDirectory) .included
  found.foldl (overrule path isDirectory) (overrule path isDirectory byLines versionControl)

def IsSilent (path : Text) (isDirectory : Bool) (text : Text) : Prop :=
  ∀ r, Rule.compile text = .ok r → r.applies path isDirectory = false

def IsSilentLine (path : Text) (isDirectory : Bool) (line : Text) : Prop :=
  ∀ text, ruleOfLine? Path.rootName line = some text → IsSilent path isDirectory text

theorem all_applies_iff : (Rule.compile text).toOption.all (!·.applies path isDirectory) = true ↔
    IsSilent path isDirectory text := by
  unfold IsSilent
  cases Rule.compile text <;> simp [Except.toOption]

instance : Decidable (IsSilent path isDirectory text) := decidable_of_iff _ all_applies_iff

theorem all_isSilent_iff :
    (ruleOfLine? Path.rootName text).all (fun t => decide (IsSilent path isDirectory t)) = true ↔
      IsSilentLine path isDirectory text := by
  unfold IsSilentLine
  cases ruleOfLine? Path.rootName text <;> simp

instance : Decidable (IsSilentLine path isDirectory text) := decidable_of_iff _ all_isSilent_iff

theorem verdict_concat (texts : List Text) (text : Text) :
    (ofTexts (texts ++ [text])).verdict path isDirectory =
      overrule path isDirectory ((ofTexts texts).verdict path isDirectory) text := by
  have hrules : (ofTexts (texts ++ [text])).rules =
      (ofTexts texts).rules ++ (Rule.compile text).toOption.toList := by
    rw [ofTexts, ofTexts, List.filterMap_append]
    cases h : (Rule.compile text).toOption <;> simp [h]
  rw [verdict, hrules, List.reverse_append, overrule]
  cases hc : Rule.compile text with
  | error fault => rfl
  | ok r =>
    rw [Except.toOption, Option.toList_some, List.reverse_singleton, List.singleton_append,
      List.find?_cons]
    cases ha : r.applies path isDirectory with
    | false => simp [verdict, ha]
    | true => simp [Rule.verdict, Rule.text_of_compile hc, ha]

theorem verdict_ofTexts (texts : List Text) : (ofTexts texts).verdict path isDirectory =
    texts.foldl (overrule path isDirectory) .included := by
  -- from the end, where a verdict looks first and a fold comes last
  induction texts using List.reverseRecOn with
  | nil => rfl
  | append_singleton texts text ih =>
    rw [verdict_concat, ih, List.foldl_append, List.foldl_cons, List.foldl_nil]

theorem foldl_overrule_lines (lines : List Text) :
    (lines.filterMap (ruleOfLine? Path.rootName)).foldl (overrule path isDirectory) v =
      lines.foldl (overruleByLine path isDirectory) v := by
  induction lines generalizing v with
  | nil => rfl
  | cons line lines ih =>
    rw [List.foldl_cons, overruleByLine]
    cases h : ruleOfLine? Path.rootName line with
    | none => rw [List.filterMap_cons_none h, ih]
    | some text => rw [List.filterMap_cons_some h, List.foldl_cons, ih]

theorem verdict_ordered (extra found : List Text) :
    (ofTexts (ordered extra found)).verdict path isDirectory = lastWord path isDirectory extra found := by
  rw [verdict_ofTexts, ordered, List.foldl_append, List.foldl_cons, foldl_overrule_lines]
  rfl

theorem overrule_of_isSilent (h : IsSilent path isDirectory text) :
    overrule path isDirectory v text = v := by
  unfold overrule
  split
  next => rfl
  next r hc => rw [h r hc, if_neg Bool.false_ne_true]

theorem foldl_overrule_of_isSilent (h : ∀ text ∈ texts, IsSilent path isDirectory text) :
    texts.foldl (overrule path isDirectory) v = v := by
  induction texts with
  | nil => rfl
  | cons text texts ih =>
    rw [List.foldl_cons, overrule_of_isSilent (h text (by simp)), ih fun t ht => h t (by simp [ht])]

theorem foldl_overruleByLine_of_isSilentLine (h : ∀ line ∈ texts, IsSilentLine path isDirectory line) :
    texts.foldl (overruleByLine path isDirectory) v = v := by
  rw [← foldl_overrule_lines]
  apply foldl_overrule_of_isSilent
  intro text ht
  obtain ⟨line, hline, hrule⟩ := List.mem_filterMap.1 ht
  exact h line hline text hrule

/-- The last rule that applies has the last word. The verdict by extra lines and found rules is the one told
forward, where each rule that applies overrules what was said before it. Lines and found rules that are no
rules or do not apply can be put in anywhere and change nothing. -/
theorem verdict_eq_lastWord (path : Text) (isDirectory : Bool) :
    let verdictBy extra found := (ofTexts (ordered extra found)).verdict path isDirectory
    (∀ extra found, verdictBy extra found = lastWord path isDirectory extra found) ∧
      (∀ front silent back found, (∀ line ∈ silent, IsSilentLine path isDirectory line) →
        verdictBy (front ++ silent ++ back) found = verdictBy (front ++ back) found) ∧
      ∀ extra front silent back, (∀ text ∈ silent, IsSilent path isDirectory text) →
        verdictBy extra (front ++ silent ++ back) = verdictBy extra (front ++ back) := by
  intro verdictBy
  have htold : ∀ extra found, verdictBy extra found = lastWord path isDirectory extra found :=
    fun extra found => verdict_ordered extra found
  refine ⟨htold, ?_, ?_⟩
  · intro front silent back found hsilent
    rw [htold, htold, lastWord, lastWord]
    simp only [List.foldl_append, foldl_overruleByLine_of_isSilentLine hsilent]
  · intro extra front silent back hsilent
    rw [htold, htold, lastWord, lastWord]
    simp only [List.foldl_append, foldl_overrule_of_isSilent hsilent]

theorem verdict_eq_lastWord_logs :
    let path := "a/x.log".toList
    let verdictBy extra found := (ofTexts (ordered extra found)).verdict path false
    (∀ line ∈ ["# logs".toList, "!/a/[x".toList], IsSilentLine path false line) ∧
      (∀ text ∈ ["**/y".toList, "a/***[".toList], IsSilent path false text) ∧
      verdictBy ["*.log".toList, "# logs".toList, "!/a/[x".toList, "!x.log".toList]
          ["a/*.log".toList, "**/y".toList, "a/***[".toList] =
        verdictBy ["*.log".toList, "!x.log".toList] ["a/*.log".toList] ∧
      verdictBy ["*.log".toList, "!x.log".toList] ["a/*.log".toList] = .excluded "a/*.log".toList := by
  intro path verdictBy
  have hlines : ∀ line ∈ ["# logs".toList, "!/a/[x".toList], IsSilentLine path false line := by
    decide +kernel
  have htexts : ∀ text ∈ ["**/y".toList, "a/***[".toList], IsSilent path false text := by
    decide +kernel
  obtain ⟨htold, hextra, hfound⟩ := verdict_eq_lastWord path false
  refine ⟨hlines, htexts, ?_, ?_⟩
  · exact (hextra ["*.log".toList] _ ["!x.log".toList] _ hlines).trans
      (hfound _ ["a/*.log".toList] _ [] htexts)
  · exact (htold _ _).trans (by decide +kernel)

end LastWord

section Pruning

theorem mayPrune_iff : s.mayPrune dir = true ↔
    s.hasNegation = false ∧ dir ≠ Path.rootName ∧ (s.verdict dir true).isExcluded = true := by
  simp [mayPrune, and_assoc]

theorem isExcluded_iff_exists (h : s.hasNegation = false) :
    (s.verdict path isDirectory).isExcluded = true ↔
      ∃ r ∈ s.rules, r.applies path isDirectory = true := by
  have hpositive : ∀ r ∈ s.rules, r.negated = false := by simpa [hasNegation] using h
  unfold verdict
  cases hf : s.rules.reverse.find? (·.applies path isDirectory) with
  | none =>
    have hnone : ∀ r ∈ s.rules, ¬ r.applies path isDirectory = true := by simpa using hf
    simpa [Verdict.isExcluded] using hnone
  | some r =>
    have hr : r ∈ s.rules := List.mem_reverse.1 (List.mem_of_find?_eq_some hf)
    have happlies := List.find?_some hf
    constructor
    · intro _
      exact ⟨r, hr, happlies⟩
    · intro _
      simp [Rule.verdict, hpositive r hr, Verdict.isExcluded]

theorem isExcluded_below (h : s.mayPrune dir = true) (hne : dir ≠ []) (below : Text) :
    (s.verdict (dir ++ '/' :: below) isDirectory).isExcluded = true := by
  obtain ⟨hn, -, hdir⟩ := mayPrune_iff.1 h
  rw [isExcluded_iff_exists hn] at hdir ⊢
  obtain ⟨r, hr, happlies⟩ := hdir
  exact ⟨r, hr, Rule.applies_below hne happlies⟩

theorem mayPrune_below (h : s.mayPrune dir = true) (hne : dir ≠ []) (below : Text) :
    s.mayPrune (dir ++ '/' :: below) = true := by
  obtain ⟨hn, -, -⟩ := mayPrune_iff.1 h
  refine mayPrune_iff.2 ⟨hn, ?_, isExcluded_below h hne below⟩
  intro he
  have hlength := congrArg List.length he
  have hdir := List.length_pos_iff.2 hne
  have hroot : Path.rootName.length = 1 := rfl
  rw [List.length_append, List.length_cons] at hlength
  omega

theorem mem_ofTexts_iff {r : Rule} :
    r ∈ (ofTexts texts).rules ↔ ∃ text ∈ texts, Rule.compile text = .ok r := by
  have hrule : ∀ text, (Rule.compile text).toOption = some r ↔ Rule.compile text = .ok r := by
    intro text
    cases Rule.compile text <;> simp [Except.toOption]
  rw [ofTexts, List.mem_filterMap]
  simp only [hrule]

theorem negated_eq_false (h : (ofTexts texts).hasNegation = false) {r : Rule} (ht : text ∈ texts)
    (hc : Rule.compile text = .ok r) : r.negated = false := by
  rw [hasNegation, List.any_eq_false] at h
  simpa using h r (mem_ofTexts_iff.2 ⟨text, ht, hc⟩)

theorem exists_excluded (h : ((ofTexts texts).verdict path isDirectory).isExcluded = true) :
    ∃ text ∈ texts, (ofTexts texts).verdict path isDirectory = .excluded text := by
  unfold verdict at h ⊢
  cases hf : (ofTexts texts).rules.reverse.find? (·.applies path isDirectory) with
  | none =>
    rw [hf] at h
    cases h
  | some r =>
    obtain ⟨text, ht, hc⟩ := mem_ofTexts_iff.1 (List.mem_reverse.1 (List.mem_of_find?_eq_some hf))
    refine ⟨text, ht, ?_⟩
    rw [hf] at h
    cases hn : r.negated with
    | true => simp [Rule.verdict, hn, Verdict.isExcluded] at h
    | false => simp [Rule.verdict, hn, Rule.text_of_compile hc]

/-- A directory that may be left out of a walk hides nothing. None of the texts is a negation, and whatever
stands below the directory is excluded by one of them, as a file and as a directory that may be left out
itself. -/
theorem excluded_of_mayPrune (h : (ofTexts texts).mayPrune dir = true) (hne : dir ≠ []) (below : Text) :
    (∀ text ∈ texts, ∀ r, Rule.compile text = .ok r → r.negated = false) ∧
      (∀ isDirectory, ∃ text ∈ texts,
        (ofTexts texts).verdict (dir ++ '/' :: below) isDirectory = .excluded text) ∧
      (ofTexts texts).mayPrune (dir ++ '/' :: below) = true := by
  obtain ⟨hn, -, -⟩ := mayPrune_iff.1 h
  refine ⟨?_, ?_, mayPrune_below h hne below⟩
  · intro text ht r hc
    exact negated_eq_false hn ht hc
  · intro isDirectory
    exact exists_excluded (isExcluded_below h hne below)

/-- The rule for directories reaches the files in them, and a later rule has the last word on some. -/
theorem excluded_of_mayPrune_target :
    let texts := ["**/target/".toList, "!**/[x".toList, "**/*.o".toList]
    let dir := "a/target".toList
    (ofTexts texts).mayPrune dir = true ∧ dir ≠ [] ∧
      (∀ isDirectory, ∃ text ∈ texts,
        (ofTexts texts).verdict "a/target/x.o".toList isDirectory = .excluded text) ∧
      (ofTexts texts).mayPrune "a/target/x.o".toList = true := by
  intro texts dir
  have h : (ofTexts texts).mayPrune dir = true := by decide +kernel
  have hne : dir ≠ [] := by decide
  obtain ⟨-, hexcluded, hprune⟩ := excluded_of_mayPrune h hne "x.o".toList
  exact ⟨h, hne, hexcluded, hprune⟩

end Pruning
end Folio.Ruleset
