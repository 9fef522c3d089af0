import Folio.Rule.Basic
import Folio.Proofs.Glob.Reads
import Folio.Proofs.Glob.Unguarded

/-!
# Segments of a pattern

What one segment of a pattern says about one name, told without globs, and the tokens that the segment is
spelled as. The tokens take the same names from the front of a path as the segment does.
-/
namespace Folio.Segment
open Glob

/-- The names that a segment takes: a star is any characters, a question mark is one, and a character
behind a backslash is itself. -/
inductive Takes : Text → Text → Prop
  | nil : Takes [] []
  | star {s n : Text} (taken : Text) (rest : Takes s n) : Takes ('*' :: s) (taken ++ n)
  | anything {s n : Text} (c : Char) (rest : Takes s n) : Takes ('?' :: s) (c :: n)
  | escaped {s n : Text} (c : Char) (rest : Takes s n) : Takes ('\\' :: c :: s) (c :: n)
  | plain {s n : Text} {c : Char} (hc : c ≠ '*' ∧ c ≠ '?' ∧ c ≠ '\\') (rest : Takes s n) :
      Takes (c :: s) (c :: n)

/-- A segment without classes in which each backslash has a character to escape. -/
structure IsRegular (s : Text) : Prop where
  no_slash : '/' ∉ s
  no_class : '[' ∉ s
  escapes : s.getLast? ≠ some '\\'

/-- Whether a bracket stands in a segment that no backslash escapes. -/
def opensClass : Text → Bool
  | [] => false
  | '\\' :: _ :: rest => opensClass rest
  | c :: rest => c = '[' || opensClass rest

def IsPlainName (n : Text) : Prop :=
  n ≠ [] ∧ ∀ c ∈ n, c ≠ '*' ∧ c ≠ '?' ∧ c ≠ '[' ∧ c ≠ ']' ∧ c ≠ '\\' ∧ c ≠ '!'

def tokens : Text → List Token
  | [] => []
  | ['\\'] => []
  | '\\' :: c :: rest =>
    .single (if Rule.isSpecial c then .inside [.one c] else .literal c) :: tokens rest
  | '*' :: '*' :: rest => tokens ('*' :: rest)
  | '*' :: rest => .star :: tokens rest
  | '?' :: rest => .single .anything :: tokens rest
  | c :: rest => .single (.literal c) :: tokens rest

variable {s n tail path : Text} {ts : List Token} {c : Char}

theorem takes_nil_iff : Takes [] n ↔ n = [] := by
  constructor
  · intro h
    cases h
    rfl
  · intro he
    subst he
    exact .nil

theorem takes_star_iff : Takes ('*' :: s) n ↔ ∃ taken rest, n = taken ++ rest ∧ Takes s rest := by
  constructor
  · intro h
    cases h with
    | star taken rest => exact ⟨taken, _, rfl, rest⟩
    | plain hc rest => exact absurd rfl hc.1
  · intro h
    obtain ⟨taken, rest, rfl, h⟩ := h
    exact .star taken h

theorem takes_anything_iff : Takes ('?' :: s) n ↔ ∃ c rest, n = c :: rest ∧ Takes s rest := by
  constructor
  · intro h
    cases h with
    | anything c rest => exact ⟨c, _, rfl, rest⟩
    | plain hc rest => exact absurd rfl hc.2.1
  · intro h
    obtain ⟨c, rest, rfl, h⟩ := h
    exact .anything c h

theorem takes_escaped_iff : Takes ('\\' :: c :: s) n ↔ ∃ rest, n = c :: rest ∧ Takes s rest := by
  constructor
  · intro h
    cases h with
    | escaped c rest => exact ⟨_, rfl, rest⟩
    | plain hc rest => exact absurd rfl hc.2.2
  · intro h
    obtain ⟨rest, rfl, h⟩ := h
    exact .escaped c h

theorem takes_plain_iff (hc : c ≠ '*' ∧ c ≠ '?' ∧ c ≠ '\\') :
    Takes (c :: s) n ↔ ∃ rest, n = c :: rest ∧ Takes s rest := by
  constructor
  · intro h
    cases h with
    | star taken rest => exact absurd rfl hc.1
    | anything c rest => exact absurd rfl hc.2.1
    | escaped c rest => exact absurd rfl hc.2.2
    | plain _ rest => exact ⟨_, rfl, rest⟩
  · intro h
    obtain ⟨rest, rfl, h⟩ := h
    exact .plain hc h

/-- Stars in a row count as one. -/
theorem takes_star_star_iff : Takes ('*' :: '*' :: s) n ↔ Takes ('*' :: s) n := by
  rw [takes_star_iff, takes_star_iff]
  constructor
  · intro h
    obtain ⟨taken, rest, rfl, h⟩ := h
    obtain ⟨more, last, rfl, hl⟩ := takes_star_iff.1 h
    exact ⟨taken ++ more, last, by simp, hl⟩
  · intro h
    obtain ⟨taken, rest, rfl, h⟩ := h
    exact ⟨taken, rest, rfl, .star [] h⟩

theorem takes_of_takes_nil (hs : s ≠ []) (h : Takes s []) : Takes s n := by
  cases s with
  | nil => exact absurd rfl hs
  | cons c s =>
    generalize he : ([] : Text) = m at h
    cases h with
    | star taken rest =>
      obtain ⟨rfl, rfl⟩ := List.append_eq_nil_iff.1 he.symm
      simpa using Takes.star n rest
    | anything c rest => cases he
    | escaped c rest => cases he
    | plain hc rest => cases he

theorem takes_plainName_iff (hs : IsPlainName s) : Takes s n ↔ n = s := by
  obtain ⟨-, hs⟩ := hs
  induction s generalizing n with
  | nil => exact takes_nil_iff
  | cons c s ih =>
    have hc := hs c (by simp)
    rw [takes_plain_iff ⟨hc.1, hc.2.1, hc.2.2.2.2.1⟩]
    simp only [ih fun d hd => hs d (by simp [hd])]
    constructor
    · intro h
      obtain ⟨rest, rfl, rfl⟩ := h
      rfl
    · intro he
      subst he
      exact ⟨s, rfl, rfl⟩

theorem IsRegular.rest (h : IsRegular (c :: s)) : IsRegular s := by
  refine ⟨fun hs => h.no_slash (by simp [hs]), fun hs => h.no_class (by simp [hs]), fun hs => ?_⟩
  cases s with
  | nil => simp at hs
  | cons d s => exact h.escapes (by rw [List.getLast?_cons_cons, hs])

theorem opensClass_eq_false (h : '[' ∉ s) : opensClass s = false := by
  fun_induction opensClass s with
  | case1 => rfl
  | case2 c rest ih =>
    simp only [List.mem_cons, not_or] at h
    exact ih h.2.2
  | case3 c rest _ ih =>
    rw [List.mem_cons, not_or] at h
    simp [ih h.2, Ne.symm h.1]

theorem head?_spellSegment_ne (hs : s.head? ≠ some '*') :
    (Rule.spellSegment s).head? ≠ some '*' := by
  unfold Rule.spellSegment
  split
  · simp
  · simp
  next c rest =>
    split
    · simp
    next hc =>
      have : c ≠ '*' := fun he => hc (by simp [he, Rule.isSpecial])
      simpa using this
  · simp
  · simp at hs
  next c rest _ _ _ _ => simpa using hs

theorem spellSegment_cons (hstar : c ≠ '*') (hopen : c ≠ '[') (hback : c ≠ '\\') :
    Rule.spellSegment (c :: s) = c :: Rule.spellSegment s := by
  rw [Rule.spellSegment.eq_def]
  split <;> simp_all

/-- A character that neither ends a segment as a backslash nor escapes another is no backslash. -/
theorem ne_backslash (hlast : c = '\\' → s = [] → False)
    (hescape : ∀ d rest, c = '\\' → s = d :: rest → False) : c ≠ '\\' := by
  intro he
  cases s with
  | nil => exact hlast he rfl
  | cons d rest => exact hescape d rest he rfl

theorem opensClass_cons (hc : c ≠ '\\') : opensClass (c :: s) = (decide (c = '[') || opensClass s) := by
  rw [opensClass.eq_def]
  split <;> simp_all

theorem reads_spellSegment (hs : opensClass s = false) (ht : tail.head? ≠ some '*')
    (h : ∀ fresh, Reads fresh tail ts) (fresh : Bool) :
    Reads fresh (Rule.spellSegment s ++ tail) (tokens s ++ ts) := by
  fun_induction tokens s generalizing fresh with
  | case1 => exact h fresh
  | case2 => exact h fresh
  | case3 c rest ih =>
    rw [opensClass] at hs
    have hr := ih hs
    by_cases hc : Rule.isSpecial c
    · have hmark : c ≠ '!' := by
        intro he
        subst he
        simp [Rule.isSpecial] at hc
      simpa [Rule.spellSegment, hc] using Reads.class_ hmark (hr false)
    · have hplain : IsPlain c := by
        simp only [Rule.isSpecial, Bool.or_eq_true, decide_eq_true_eq, not_or] at hc
        exact ⟨hc.1.1.1, hc.1.1.2, hc.1.2⟩
      simpa [Rule.spellSegment, hc] using Reads.plain hplain (hr _)
  | case4 rest ih =>
    rw [opensClass_cons (by decide)] at hs
    simpa [Rule.spellSegment] using ih hs fresh
  | case5 rest hne ih =>
    rw [opensClass_cons (by decide)] at hs
    have hhead : (Rule.spellSegment rest ++ tail).head? ≠ some '*' := by
      rw [List.head?_append]
      have hrest : rest.head? ≠ some '*' := by
        intro hh
        obtain ⟨more, rfl⟩ := List.head?_eq_some_iff.1 hh
        exact hne more rfl
      have hspelled := head?_spellSegment_ne hrest
      cases hf : (Rule.spellSegment rest).head? with
      | none => simpa using ht
      | some d => simpa [hf] using hspelled
    have hspell : Rule.spellSegment ('*' :: rest) = '*' :: Rule.spellSegment rest := by
      rw [Rule.spellSegment] <;> simp_all
    rw [hspell]
    exact Reads.star hhead (ih hs false)
  | case6 rest ih =>
    rw [opensClass_cons (by decide)] at hs
    exact Reads.anything (ih hs false)
  | case7 c rest h₁ h₂ h₃ h₄ h₅ ih =>
    have hback := ne_backslash h₁ h₂
    rw [opensClass_cons hback, Bool.or_eq_false_iff, decide_eq_false_iff_not] at hs
    rw [spellSegment_cons h₄ hs.1 hback]
    exact Reads.plain ⟨h₄, h₅, hs.1⟩ (ih hs.2 _)

theorem dots_unguarded : Rule.dots.guarded = false := rfl

theorem wild_unguarded (c : Char) : Rule.dots.wild true c = decide (c ≠ '/') := by
  simp [Dots.wild, dots_unguarded]

theorem accepts_character_iff (hc : c ≠ '/') {single : Single} {whole : Text} {next : List Token}
    (hsingle : ∀ d, single.takes Rule.dots true d = true ↔ d = c)
    (hwhole : ∀ n, Takes whole n ↔ ∃ rest, n = c :: rest ∧ Takes s rest)
    (hnext : ∀ {path}, accepts Rule.dots next path = true ↔ ∃ name rest, path = name ++ rest ∧
      '/' ∉ name ∧ Takes s name ∧ accepts Rule.dots ts rest = true) :
    accepts Rule.dots (.single single :: next) path = true ↔ ∃ name rest, path = name ++ rest ∧
      '/' ∉ name ∧ Takes whole name ∧ accepts Rule.dots ts rest = true := by
  rw [accepts_single_iff dots_unguarded]
  simp only [hsingle, hwhole, hnext]
  constructor
  · intro h
    obtain ⟨d, _, rfl, rfl, name, last, rfl, hn, ht, h⟩ := h
    exact ⟨d :: name, last, rfl, by simp [hn, hc.symm], ⟨name, rfl, ht⟩, h⟩
  · intro h
    obtain ⟨_, last, rfl, hn, ⟨name, rfl, ht⟩, h⟩ := h
    exact ⟨c, name ++ last, rfl, rfl, name, last, rfl, fun hm => hn (by simp [hm]), ht, h⟩

theorem takes_escape_iff (hc : c ≠ '/') (d : Char) :
    (if Rule.isSpecial c then Single.inside [.one c] else .literal c).takes Rule.dots true d = true ↔
      d = c := by
  split
  · have hone : [Member.one c].any (·.contains d) = decide (d = c) := by simp [Member.contains]
    rw [Single.takes, hone, wild_unguarded, Bool.and_eq_true, decide_eq_true_eq, decide_eq_true_eq]
    constructor
    · intro h
      exact h.2
    · intro h
      exact ⟨h ▸ hc, h⟩
  · simp [Single.takes]

theorem accepts_tokens_iff (hs : IsRegular s) :
    accepts Rule.dots (tokens s ++ ts) path = true ↔
      ∃ name rest, path = name ++ rest ∧ '/' ∉ name ∧ Takes s name ∧
        accepts Rule.dots ts rest = true := by
  fun_induction tokens s generalizing path with
  | case1 =>
    simp only [takes_nil_iff, List.nil_append]
    constructor
    · intro h
      exact ⟨[], path, rfl, by simp, rfl, h⟩
    · intro h
      obtain ⟨_, rest, rfl, -, rfl, h⟩ := h
      exact h
  | case2 => exact absurd rfl hs.escapes
  | case3 c rest ih =>
    have hc : c ≠ '/' := fun he => hs.no_slash (by simp [he])
    exact accepts_character_iff hc (takes_escape_iff hc) (fun _ => takes_escaped_iff)
      (ih hs.rest.rest)
  | case4 rest ih => simp only [ih hs.rest, takes_star_star_iff]
  | case5 rest hne ih =>
    rw [List.cons_append, accepts_star_iff dots_unguarded]
    simp only [ih hs.rest, takes_star_iff]
    constructor
    · intro h
      obtain ⟨taken, _, rfl, ht, name, last, rfl, hn, hr, h⟩ := h
      exact ⟨taken ++ name, last, by simp, by simp [ht, hn], ⟨taken, name, rfl, hr⟩, h⟩
    · intro h
      obtain ⟨_, last, rfl, hn, ⟨taken, name, rfl, hr⟩, h⟩ := h
      simp only [List.mem_append, not_or] at hn
      exact ⟨taken, name ++ last, by simp, hn.1, name, last, rfl, hn.2, hr, h⟩
  | case6 rest ih =>
    rw [List.cons_append, accepts_single_iff dots_unguarded]
    have hwild : ∀ d, Single.anything.takes Rule.dots true d = true ↔ d ≠ '/' := by
      simp [Single.takes, wild_unguarded]
    simp only [hwild, ih hs.rest, takes_anything_iff]
    constructor
    · intro h
      obtain ⟨d, _, rfl, hd, name, last, rfl, hn, ht, h⟩ := h
      exact ⟨d :: name, last, rfl, by simp [hn, hd.symm], ⟨d, name, rfl, ht⟩, h⟩
    · intro h
      obtain ⟨_, last, rfl, hn, ⟨d, name, rfl, ht⟩, h⟩ := h
      simp only [List.mem_cons, not_or] at hn
      exact ⟨d, name ++ last, rfl, Ne.symm hn.1, name, last, rfl, hn.2, ht, h⟩
  | case7 c rest h₁ h₂ h₃ h₄ h₅ ih =>
    have hc : c ≠ '/' := fun he => hs.no_slash (by simp [he])
    exact accepts_character_iff hc (by simp [Single.takes])
      (fun _ => takes_plain_iff ⟨h₄, h₅, ne_backslash h₁ h₂⟩) (ih hs.rest)

end Folio.Segment
