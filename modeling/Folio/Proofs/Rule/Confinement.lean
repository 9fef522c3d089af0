import Folio.Proofs.Rule.Scope

/-!
# Confinement

The rules of a directory are confined when none of them applies outside of the directory. Its path is
written into its rules as it is. So its rules are confined when no character of the path means anything in
a pattern and it does not begin with the negation mark, and without brackets in the path only then: a
sample of what the path takes as a pattern lies outside of the directory.
-/
namespace Folio.Segment
open Glob

/-- A name that a segment takes, no longer than the segment: wildcards take a letter. -/
def sample : Text → Text
  | [] => []
  | ['\\'] => []
  | '\\' :: c :: rest => c :: sample rest
  | '*' :: '*' :: rest => sample ('*' :: rest)
  | '*' :: rest => 'x' :: sample rest
  | '?' :: rest => 'x' :: sample rest
  | c :: rest => c :: sample rest

variable {s path : Text} {ts : List Token} {segments : List Text}

theorem length_sample_le (s : Text) : (sample s).length ≤ s.length := by
  fun_induction sample s <;> simp only [List.length_cons, List.length_nil] at * <;> omega

theorem isLiteral_of_sample_eq (h : sample s = s) (hs : '[' ∉ s) : Rule.IsLiteral s := by
  -- an escape or a second star would make the sample shorter, a wildcard would become a letter
  have hlength := congrArg List.length h
  fun_induction sample s with
  | case1 => simp [Rule.IsLiteral]
  | case2 => simp at h
  | case3 c rest ih =>
    have hle := length_sample_le rest
    simp only [List.length_cons] at hlength
    omega
  | case4 rest ih =>
    have hle := length_sample_le ('*' :: rest)
    simp only [List.length_cons] at hlength hle
    omega
  | case5 rest hne ih => simp at h
  | case6 rest ih => simp at h
  | case7 c rest h₁ h₂ h₃ h₄ h₅ ih =>
    obtain ⟨-, hrest⟩ := List.cons.inj h
    simp only [List.mem_cons, not_or] at hs
    have hliteral := ih hrest hs.2 (congrArg List.length hrest)
    intro d hd
    rcases List.mem_cons.1 hd with rfl | hd
    · exact ⟨h₄, h₅, Ne.symm hs.1, ne_backslash h₁ h₂⟩
    · exact hliteral d hd

theorem notMem_sample (hs : '/' ∉ s) : '/' ∉ sample s := by
  fun_induction sample s <;> simp_all

theorem accepts_sample (hs : '/' ∉ s) (h : accepts Rule.dots ts path = true) :
    accepts Rule.dots (tokens s ++ ts) (sample s ++ path) = true := by
  fun_induction tokens s with
  | case1 => exact h
  | case2 => exact h
  | case3 c rest ih =>
    simp only [List.mem_cons, not_or] at hs
    have htake := (takes_escape_iff (Ne.symm hs.2.1) c).2 rfl
    exact (accepts_single_iff dots_unguarded).2 ⟨c, _, rfl, htake, ih hs.2.2⟩
  | case4 rest ih => exact ih (List.not_mem_of_not_mem_cons hs)
  | case5 rest hne ih =>
    rw [sample.eq_5 rest hne]
    exact (accepts_star_iff dots_unguarded).2
      ⟨['x'], _, rfl, by decide, ih (List.not_mem_of_not_mem_cons hs)⟩
  | case6 rest ih =>
    exact (accepts_single_iff dots_unguarded).2
      ⟨'x', _, rfl, by decide, ih (List.not_mem_of_not_mem_cons hs)⟩
  | case7 c rest h₁ h₂ h₃ h₄ h₅ ih =>
    rw [sample.eq_7 c rest h₁ h₂ h₃ h₄ h₅]
    exact (accepts_single_iff dots_unguarded).2
      ⟨c, _, rfl, by simp [Single.takes], ih (List.not_mem_of_not_mem_cons hs)⟩

theorem accepts_samples (hs : ∀ s ∈ segments, '/' ∉ s) (hne : segments ≠ []) :
    accepts Rule.dots (allTokens segments) (['/'].intercalate (segments.map sample)) = true := by
  induction segments with
  | nil => exact absurd rfl hne
  | cons s rest ih =>
    have hfirst := hs s (by simp)
    by_cases hr : rest = []
    · subst hr
      by_cases ha : s = Rule.anyDirectories
      · rw [allTokens, if_pos ha, accepts_globstar_iff dots_unguarded]
        exact .inr (.inl rfl)
      · have hend : accepts Rule.dots [] [] = true := rfl
        rw [allTokens, if_neg ha]
        simpa using accepts_sample hfirst hend
    · have hrest := ih (fun t ht => hs t (by simp [ht])) hr
      have hmap : rest.map sample ≠ [] := by simpa using hr
      rw [List.map_cons, Text.intercalate_cons hmap]
      by_cases ha : s = Rule.anyDirectories
      · rw [ha, allTokens_any hr, accepts_globstar_iff dots_unguarded]
        exact .inr (.inr ⟨_, _, rfl, hrest⟩)
      · rw [allTokens_name ha hr]
        exact accepts_sample hfirst
          ((accepts_single_iff dots_unguarded).2 ⟨'/', _, rfl, by decide, hrest⟩)

theorem length_samples_le (segments : List Text) :
    (['/'].intercalate (segments.map sample)).length ≤ (['/'].intercalate segments).length := by
  induction segments with
  | nil => simp
  | cons s rest ih =>
    have hs := length_sample_le s
    by_cases hr : rest = []
    · simpa [hr] using hs
    · have hmap : rest.map sample ≠ [] := by simpa using hr
      rw [List.map_cons, Text.intercalate_cons hmap, Text.intercalate_cons hr]
      simp only [List.length_append, List.length_cons]
      omega

end Folio.Segment

namespace Folio.Rule
open Glob Segment

/-- No rule from an exclusion file of the directory applies outside of the directory. -/
def IsConfined (dir : Text) : Prop :=
  ∀ line text rule path isDirectory, ruleOfLine? dir line = some text → compile text = .ok rule →
    rule.applies path isDirectory = true → dir ++ ['/'] <+: path

/-- What a rule keeps of the path of its directory in front of its pattern. -/
def base (dir : Text) : Text := ((Text.afterFirst? '!' dir).getD dir).dropWhile (· = '/')

/-- The segments of the rule that the anchored line `/x` stands for in a directory. -/
def probe (dir : Text) : List Text :=
  (if base dir = [] then [] else (base dir).splitOn '/') ++ [['x']]

variable {dir : Text} {rule : Rule}

theorem base_subset (dir : Text) : base dir ⊆ dir := by
  apply List.Subset.trans (List.dropWhile_subset _)
  cases h : Text.afterFirst? '!' dir with
  | none => simp
  | some rest =>
    rw [Text.afterFirst?_eq_some_iff.1 h]
    simp

theorem length_base_lt (hm : dir.head? = some '!') : (base dir).length < dir.length := by
  obtain ⟨rest, rfl⟩ := List.head?_eq_some_iff.1 hm
  exact Nat.lt_succ_of_le (List.dropWhile_suffix _).length_le

theorem base_eq_self (hm : dir.head? ≠ some '!') (hs : dir.head? ≠ some '/') : base dir = dir := by
  rw [base, Text.afterFirst?_eq_none_iff.2 hm]
  exact dropWhile_slash hs

theorem length_base_le (dir : Text) (hs : dir.head? ≠ some '/') : (base dir).length ≤ dir.length := by
  by_cases hm : dir.head? = some '!'
  · exact Nat.le_of_lt (length_base_lt hm)
  · exact (base_eq_self hm hs).symm ▸ Nat.le_refl _

theorem parts_probe (hne : dir ≠ []) : parts (dir ++ ['/', 'x']) =
    ⟨dir.head? = some '!', false, ['/'].intercalate (probe dir)⟩ := by
  obtain ⟨c, d, rfl⟩ := List.exists_cons_of_ne_nil hne
  have hrest : (Text.afterFirst? '!' ((c :: d) ++ ['/', 'x'])).getD ((c :: d) ++ ['/', 'x']) =
      (Text.afterFirst? '!' (c :: d)).getD (c :: d) ++ ['/', 'x'] := by
    by_cases hc : c = '!' <;> simp [Text.afterFirst?, hc]
  have hprobe : ['/'].intercalate (probe (c :: d)) =
      ((Text.afterFirst? '!' (c :: d)).getD (c :: d) ++ ['/', 'x']).dropWhile (· = '/') := by
    rw [List.dropWhile_append, ← base, probe]
    by_cases hb : base (c :: d) = []
    · simp [hb]
    · rw [if_neg hb, if_neg (by simpa using hb),
        Text.intercalate_append (List.splitOn_ne_nil '/' _) (by simp), List.intercalate_splitOn]
      simp
  have hlast : ∀ t : Text, (t ++ ['/', 'x']).getLast? = some 'x' := by simp
  simp only [parts, hrest, hprobe, Text.beforeLast?, hlast]
  simp

theorem probe_ne_nil (dir : Text) : probe dir ≠ [] := by simp [probe]

theorem mem_probe {s : Text} (hs : s ∈ probe dir) : s = ['x'] ∨ s ∈ (base dir).splitOn '/' := by
  rw [probe, List.mem_append, List.mem_singleton] at hs
  rcases hs with hs | hs
  · split at hs
    · simp at hs
    · exact .inr hs
  · exact .inl hs

theorem slash_notMem_of_mem_probe {s : Text} (hs : s ∈ probe dir) : '/' ∉ s := by
  rcases mem_probe hs with rfl | hs
  · decide
  · exact Text.notMem_of_mem_splitOn hs

/-- Without brackets in the path of a directory its rule for `/x` applies to the samples of its segments. -/
theorem exists_applies_samples (hroot : dir ≠ Path.rootName) (hne : dir ≠ []) (hclass : '[' ∉ dir) :
    ∃ line text rule, ruleOfLine? dir line = some text ∧ compile text = .ok rule ∧
      rule.applies (['/'].intercalate ((probe dir).map sample)) false = true := by
  have hslash : ∀ s ∈ probe dir, '/' ∉ s := fun s hs => slash_notMem_of_mem_probe hs
  have hopen : ∀ s ∈ probe dir, '[' ∉ s := by
    intro s hs hm
    rcases mem_probe hs with rfl | hs
    · simp at hm
    · exact hclass (base_subset dir (Text.subset_of_mem_splitOn hs hm))
  have hline : ruleOfLine? dir ['/', 'x'] = some (dir ++ ['/', 'x']) := by
    have hread : Line.read? ['/', 'x'] = some ⟨false, true, ['x']⟩ := by decide
    simp [ruleOfLine?, hread, Line.ruleText, Line.tied, hroot]
  have hpattern : ['/'].intercalate (probe dir) ≠ [] := by
    intro he
    have hlength := congrArg List.length he
    rw [probe] at hlength
    by_cases hb : base dir = []
    · simp [hb] at hlength
    · rw [if_neg hb, Text.intercalate_append (List.splitOn_ne_nil '/' _) (by simp)] at hlength
      simp at hlength
  have hparse : Glob.parse (spell (['/'].intercalate (probe dir))) = .ok (allTokens (probe dir)) := by
    rw [spell_intercalate hslash (probe_ne_nil dir)]
    exact reads_spelling (fun s hs => opensClass_eq_false (hopen s hs)) 0
  refine ⟨_, _, ⟨dir ++ ['/', 'x'], dir.head? = some '!', false, allTokens (probe dir)⟩, hline, ?_, ?_⟩
  · simp [compile, parts_probe hne, hpattern, hparse]
  · simp [applies, accepts_samples hslash (probe_ne_nil dir)]

/-- A text that has `/x` at its end and begins with a directory is no longer than the directory. -/
theorem eq_of_prefix_probe {t : Text} (ht : t.length ≤ dir.length) (h : dir ++ ['/'] <+: t ++ ['/', 'x']) :
    dir = t := by
  obtain ⟨r, hr⟩ := h
  have hlength := congrArg List.length hr
  simp only [List.length_append, List.length_cons, List.length_nil] at hlength
  have hne : r ≠ [] := by
    rintro rfl
    have hlast := congrArg List.getLast? hr
    simp at hlast
  have hpos := List.length_pos_iff.2 hne
  rw [List.append_assoc] at hr
  exact (List.append_inj hr (by omega)).1

theorem isLiteral_of_samples_eq (hclass : '[' ∉ dir)
    (h : ['/'].intercalate ((dir.splitOn '/').map sample) = dir) : IsLiteral dir := by
  have hslash : ∀ s ∈ (dir.splitOn '/').map sample, '/' ∉ s := by
    intro s hs
    obtain ⟨n, hn, rfl⟩ := List.mem_map.1 hs
    exact notMem_sample (Text.notMem_of_mem_splitOn hn)
  have hmap : (dir.splitOn '/').map sample = dir.splitOn '/' := by
    rw [← List.splitOn_intercalate '/' hslash (by simp), h]
  have hpieces : ∀ n ∈ dir.splitOn '/', IsLiteral n := by
    intro n hn
    have hsample : sample n = n := List.map_inj_left.1 (hmap.trans (List.map_id' _).symm) n hn
    exact isLiteral_of_sample_eq hsample fun hm => hclass (Text.subset_of_mem_splitOn hn hm)
  intro c hc
  have hdir : ['/'].intercalate (dir.splitOn '/') = dir := List.intercalate_splitOn '/'
  rw [← hdir] at hc
  rcases Text.mem_intercalate hc with rfl | ⟨n, hn, hc⟩
  · decide
  · exact hpieces n hn c hc

theorem isLiteral_of_prefix_samples (hne : dir ≠ []) (hs : dir.head? ≠ some '/') (hclass : '[' ∉ dir)
    (h : dir ++ ['/'] <+: ['/'].intercalate ((probe dir).map sample)) :
    IsLiteral dir ∧ dir.head? ≠ some '!' := by
  have hx : sample ['x'] = ['x'] := rfl
  by_cases hb : base dir = []
  · have hlength := h.length_le
    simp only [probe, hb, if_true, List.nil_append, List.map_cons, List.map_nil, hx,
      List.intercalate_singleton, List.length_append, List.length_cons, List.length_nil] at hlength
    exact absurd (List.eq_nil_of_length_eq_zero (by omega)) hne
  · have hpath : ['/'].intercalate ((probe dir).map sample) =
        ['/'].intercalate (((base dir).splitOn '/').map sample) ++ ['/', 'x'] := by
      rw [probe, if_neg hb, List.map_append, Text.intercalate_append (by simp) (by simp)]
      simp [hx]
    have hsamples := length_samples_le ((base dir).splitOn '/')
    rw [List.intercalate_splitOn] at hsamples
    have hbase := length_base_le dir hs
    rw [hpath] at h
    have hdir := eq_of_prefix_probe (by omega) h
    -- the base of a directory with a mark is shorter than the directory
    have hm : dir.head? ≠ some '!' := by
      intro hm
      have hlt := length_base_lt hm
      have hlength := congrArg List.length hdir
      omega
    rw [base_eq_self hm hs] at hdir
    exact ⟨isLiteral_of_samples_eq hclass hdir.symm, hm⟩

/-- Without brackets in its path a directory has confined rules exactly when its path is literal and does
not begin with a mark. -/
theorem isConfined_iff {dir : Text} (hroot : dir ≠ Path.rootName) (hne : dir ≠ [])
    (hs : dir.head? ≠ some '/') (hclass : '[' ∉ dir) :
    IsConfined dir ↔ IsLiteral dir ∧ dir.head? ≠ some '!' := by
  constructor
  · intro h
    obtain ⟨line, text, rule, ht, hc, ha⟩ := exists_applies_samples hroot hne hclass
    exact isLiteral_of_prefix_samples hne hs hclass (h line text rule _ false ht hc ha)
  · intro h line text rule path isDirectory ht hc ha
    have hanc := mem_ancestors_of_ruleOfLine? hroot h.1 hne h.2 hs ht hc ha
    obtain ⟨-, r, rfl⟩ := mem_ancestors.1 hanc
    exact ⟨r, by simp⟩

theorem isConfined_iff_draft :
    "a/b]!".toList ≠ Path.rootName ∧ "a/b]!".toList ≠ [] ∧ "a/b]!".toList.head? ≠ some '/' ∧
      '[' ∉ "a/b]!".toList ∧
      (IsConfined "a/b]!".toList ↔ IsLiteral "a/b]!".toList ∧ "a/b]!".toList.head? ≠ some '!') := by
  have hroot : "a/b]!".toList ≠ Path.rootName := by decide
  have hne : "a/b]!".toList ≠ [] := by decide
  have hs : "a/b]!".toList.head? ≠ some '/' := by decide
  have hclass : '[' ∉ "a/b]!".toList := by decide
  exact ⟨hroot, hne, hs, hclass, isConfined_iff hroot hne hs hclass⟩

/-- A star in the name of a directory lets its rules out: the rule of `a*` for `x` applies to `ab/x`. -/
theorem not_isConfined_star :
    ruleOfLine? "a*".toList "x".toList = some "a*/**/x".toList ∧
      (∃ rule, compile "a*/**/x".toList = .ok rule ∧ rule.applies "ab/x".toList false = true) ∧
      ¬ "a*".toList ++ ['/'] <+: "ab/x".toList ∧ ¬ IsConfined "a*".toList := by
  have ht : ruleOfLine? "a*".toList "x".toList = some "a*/**/x".toList := by decide
  have hplain : IsPlain 'a' ∧ IsPlain '/' ∧ IsPlain 'x' := by simp [IsPlain]
  have hparse : Glob.parse "a*/**/x".toList = .ok [.single (.literal 'a'), .star,
      .single (.literal '/'), .globstar, .single (.literal 'x')] :=
    Reads.plain hplain.1 (Reads.star (by decide) (Reads.plain hplain.2.1
      (Reads.globstar (Reads.plain hplain.2.2 Reads.nil)))) 0
  have hspell : spell (parts "a*/**/x".toList).pattern = "a*/**/x".toList := by decide
  have hc : compile "a*/**/x".toList = .ok ⟨"a*/**/x".toList, false, false, [.single (.literal 'a'),
      .star, .single (.literal '/'), .globstar, .single (.literal 'x')]⟩ := by
    simp only [compile, hspell, hparse]
    rfl
  generalize hrule : Rule.mk _ _ _ _ = rule at hc
  have ha : rule.applies "ab/x".toList false = true := by
    rw [← hrule]
    decide
  have hout : ¬ "a*".toList ++ ['/'] <+: "ab/x".toList := by decide
  exact ⟨ht, ⟨rule, hc, ha⟩, hout, fun h => hout (h _ _ _ _ _ ht hc ha)⟩

end Folio.Rule
