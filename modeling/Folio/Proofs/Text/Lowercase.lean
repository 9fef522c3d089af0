import Mathlib.Data.List.DropRight
import Folio.Proofs.Text.Trim
import Folio.Text.Lowercase

/-!
# Lower-cased texts

Every character of a lower-cased text is its own lower case, so that lower-casing again changes nothing.
Blanks and dots have no case: where they stand at an end of the text they stand there before and after.
-/
namespace Folio.Text
variable {c x : Char} {t before : Text} {n : Nat}

/-! ### Runs -/

namespace CaseRun
variable {r s : CaseRun}

def target (r : CaseRun) (n : Nat) : Nat := (n + r.offset).toNat

/-- The lower case of a run's characters is outside of another run: on one side of it, or between its steps. -/
def misses (r s : CaseRun) : Bool :=
  (r.target r.last).blt s.first || s.last.blt (r.target r.first) ||
    ((r.first == r.last || r.step == 2) && s.step == 2 && (r.target r.first + s.first) % 2 == 1)

/-- Neither a run's characters nor their lower case lie between two code points. -/
def avoids (r : CaseRun) (range : Nat × Nat) : Bool :=
  (r.last.blt range.1 || range.2.blt r.first) &&
    ((r.target r.last).blt range.1 || range.2.blt (r.target r.first))

theorem bounds_of_covers (h : r.covers n = true) :
    r.first ≤ n ∧ n ≤ r.last ∧ (n - r.first) % r.step = 0 := by
  simpa [covers, and_assoc] using h

theorem target_eq (hr : 0 < r.target r.first) (hn : r.first ≤ n) :
    r.target n = r.target r.first + (n - r.first) := by
  unfold target at hr ⊢
  omega

theorem not_covers_target (hr : 0 < r.target r.first) (hm : r.misses s = true) (h : r.covers n = true) :
    s.covers (r.target n) = false := by
  obtain ⟨hfirst, hlast, hstep⟩ := bounds_of_covers h
  have htarget := target_eq hr hfirst
  have hend := target_eq hr (hfirst.trans hlast)
  rw [Bool.eq_false_iff]
  intro hs
  obtain ⟨hsfirst, hslast, hsstep⟩ := bounds_of_covers hs
  simp only [misses, Bool.or_eq_true, Bool.and_eq_true, Nat.blt_eq, beq_iff_eq] at hm
  rcases hm with (hbelow | habove) | ⟨⟨hone, htwo⟩, hodd⟩
  · omega
  · omega
  · rw [htwo] at hsstep
    have heven : (n - r.first) % 2 = 0 := by
      rcases hone with hone | hone
      · omega
      · rwa [hone] at hstep
    omega

end CaseRun

/-- A number that is no code point stands for the character zero. -/
theorem toNat_ofNat_cases (n : Nat) : (Char.ofNat n).toNat = n ∨ (Char.ofNat n).toNat = 0 := by
  by_cases h : n.isValidChar
  · left
    rw [Char.ofNat, dif_pos h]
    rfl
  · right
    rw [Char.ofNat, dif_neg h]
    rfl

theorem target_caseRuns : ∀ r ∈ caseRuns, 0 < r.target r.first := by decide +kernel

theorem misses_caseRuns : (caseRuns.all fun r => caseRuns.all r.misses) = true := by decide +kernel

/-- The runs cover no lower case of their own characters, and no code point zero. -/
theorem find?_covers_target {r : CaseRun} (hr : r ∈ caseRuns) (h : r.covers n = true) :
    caseRuns.find? (·.covers (Char.ofNat (r.target n)).toNat) = none := by
  have hfirst : (caseRuns.all fun s => Nat.blt 0 s.first) = true := by decide +kernel
  rw [List.find?_eq_none]
  intro s hs
  rw [Bool.not_eq_true]
  rcases toNat_ofNat_cases (r.target n) with ht | ht
  · have hmisses := List.all_eq_true.1 (List.all_eq_true.1 misses_caseRuns r hr) s hs
    rw [ht]
    exact CaseRun.not_covers_target (target_caseRuns r hr) hmisses h
  · have hpos : 0 < s.first := by simpa using List.all_eq_true.1 hfirst s hs
    rw [ht, Bool.eq_false_iff]
    intro hzero
    have hle := (CaseRun.bounds_of_covers hzero).1
    omega

theorem lowerChar_cases (c : Char) : lowerChar c = c ∨
    ∃ r ∈ caseRuns, r.covers c.toNat = true ∧ lowerChar c = Char.ofNat (r.target c.toNat) := by
  unfold lowerChar
  split
  next r hr =>
    have hcovers := List.find?_some hr
    exact .inr ⟨r, List.mem_of_find?_eq_some hr, hcovers, rfl⟩
  next => exact .inl rfl

theorem lowerChar_lowerChar (c : Char) : lowerChar (lowerChar c) = lowerChar c := by
  rcases lowerChar_cases c with h | ⟨r, hr, hc, h⟩
  · rw [h, h]
  · rw [h, lowerChar, find?_covers_target hr hc]

/-- Ranges that the runs keep away from tell a character and its lower case alike. -/
theorem inRanges_lowerChar {ranges : List (Nat × Nat)} (h0 : ∀ range ∈ ranges, 0 < range.1)
    (h : (caseRuns.all fun r => ranges.all r.avoids) = true) (c : Char) :
    inRanges ranges (lowerChar c) = inRanges ranges c := by
  rcases lowerChar_cases c with hc | ⟨r, hr, hc, ht⟩
  · rw [hc]
  · obtain ⟨hfirst, hlast, -⟩ := CaseRun.bounds_of_covers hc
    have htarget := CaseRun.target_eq (target_caseRuns r hr) hfirst
    have hend := CaseRun.target_eq (target_caseRuns r hr) (hfirst.trans hlast)
    have havoids : ∀ range ∈ ranges, r.avoids range = true :=
      List.all_eq_true.1 (List.all_eq_true.1 h r hr)
    -- what is left for the lower case of a character is the zero, which is in no range either
    have hout : ∀ d : Char, d.toNat = c.toNat ∨ d.toNat = r.target c.toNat ∨ d.toNat = 0 →
        inRanges ranges d = false := by
      intro d hd
      rw [inRanges, List.any_eq_false]
      intro range hrange
      have hpos := h0 range hrange
      have ha := havoids range hrange
      simp only [CaseRun.avoids, Bool.and_eq_true, Bool.or_eq_true, Nat.blt_eq] at ha
      simp only [Bool.and_eq_true, decide_eq_true_eq]
      omega
    rw [ht, hout c (.inl rfl), hout _ (.inr (toNat_ofNat_cases _))]

theorem isBlank_lowerChar (c : Char) : isBlank (lowerChar c) = isBlank c :=
  inRanges_lowerChar (by decide) (by decide +kernel) c

/-- A character that the runs keep away from is no lower case but its own. -/
theorem lowerChar_eq_iff (h0 : 0 < x.toNat) (h : (caseRuns.all fun r => r.avoids (x.toNat, x.toNat)) = true) :
    lowerChar c = x ↔ c = x := by
  have hx : ∀ d : Char, inRanges [(x.toNat, x.toNat)] d = true ↔ d = x := by
    intro d
    simp only [inRanges, List.any_cons, List.any_nil, Bool.or_false, Bool.and_eq_true, decide_eq_true_eq]
    rw [← Char.toNat_inj]
    omega
  have hsame : inRanges [(x.toNat, x.toNat)] (lowerChar c) = inRanges [(x.toNat, x.toNat)] c :=
    inRanges_lowerChar (by simpa using h0) (by simpa using h) c
  rw [← hx, ← hx, hsame]

/-! ### Characters of a lower-cased text -/

/-- A character that lower-casing leaves as it is wherever it stands. -/
structure IsLower (c : Char) : Prop where
  ne_sigma : c ≠ '\u03A3'
  ne_dotted : c ≠ '\u0130'
  lowerChar_eq : lowerChar c = c

instance (c : Char) : Decidable (IsLower c) :=
  decidable_of_iff (c ≠ '\u03A3' ∧ c ≠ '\u0130' ∧ lowerChar c = c)
    ⟨fun h => ⟨h.1, h.2.1, h.2.2⟩, fun h => ⟨h.1, h.2, h.3⟩⟩

theorem isLower_lowerChar (hc : c ≠ '\u0130') : IsLower (lowerChar c) where
  ne_sigma h := by
    have hsigma := congrArg lowerChar h
    rw [lowerChar_lowerChar, h] at hsigma
    exact absurd hsigma (by decide)
  ne_dotted h := hc ((lowerChar_eq_iff (by decide) (by decide +kernel)).1 h)
  lowerChar_eq := lowerChar_lowerChar c

/-- A character that may stand in the place of another one after lower-casing. -/
structure Lowers (c x : Char) : Prop where
  isLower : IsLower x
  isBlank_eq : isBlank x = isBlank c
  eq_dot_iff : x = '.' ↔ c = '.'

theorem exists_lowerAfter_cons (before : Text) (c : Char) (t : Text) : ∃ x more,
    lowerAfter before (c :: t) = x :: more ++ lowerAfter (c :: before) t ∧ ∀ y ∈ x :: more, Lowers c y := by
  rw [lowerAfter]
  split
  next hc =>
    subst hc
    split
    · exact ⟨_, [], rfl, by simpa using ⟨by decide, by decide, by decide⟩⟩
    · exact ⟨_, [], rfl, by simpa using ⟨by decide, by decide, by decide⟩⟩
  next =>
    split
    next hc =>
      subst hc
      have hboth : Lowers '\u0130' 'i' ∧ Lowers '\u0130' '\u0307' :=
        ⟨⟨by decide, by decide, by decide⟩, ⟨by decide, by decide, by decide⟩⟩
      exact ⟨_, _, rfl, by simpa using hboth⟩
    next hc =>
      have hlowers : Lowers c (lowerChar c) :=
        ⟨isLower_lowerChar hc, isBlank_lowerChar c, lowerChar_eq_iff (by decide) (by decide +kernel)⟩
      exact ⟨_, [], rfl, by simpa using hlowers⟩

theorem exists_of_mem_lowerAfter (h : x ∈ lowerAfter before t) : ∃ c ∈ t, Lowers c x := by
  induction t generalizing before with
  | nil => cases h
  | cons c t ih =>
    obtain ⟨y, more, he, hlowers⟩ := exists_lowerAfter_cons before c t
    rw [he] at h
    rcases List.mem_append.1 h with h | h
    · exact ⟨c, List.mem_cons_self, hlowers x h⟩
    · obtain ⟨d, hd, hl⟩ := ih h
      exact ⟨d, List.mem_cons_of_mem c hd, hl⟩

theorem isLower_of_mem_lowercase (h : x ∈ lowercase t) : IsLower x := by
  obtain ⟨c, -, hc⟩ := exists_of_mem_lowerAfter h
  exact hc.isLower

theorem lowerAfter_eq_self (h : ∀ c ∈ t, IsLower c) : lowerAfter before t = t := by
  induction t generalizing before with
  | nil => rfl
  | cons c t ih =>
    have hc := h c List.mem_cons_self
    rw [lowerAfter, ih fun d hd => h d (List.mem_cons_of_mem c hd)]
    simp [hc.ne_sigma, hc.ne_dotted, hc.lowerChar_eq]

theorem lowercase_lowercase (t : Text) : lowercase (lowercase t) = lowercase t :=
  lowerAfter_eq_self fun _ => isLower_of_mem_lowercase

theorem head?_lowercase (h : t.head? = some c) : ∃ x, (lowercase t).head? = some x ∧ Lowers c x := by
  cases t with
  | nil => cases h
  | cons d t =>
    cases h
    obtain ⟨x, more, he, hlowers⟩ := exists_lowerAfter_cons [] c t
    exact ⟨x, by rw [lowercase, he]; rfl, hlowers x List.mem_cons_self⟩

theorem getLast?_lowerAfter (h : t.getLast? = some c) :
    ∃ x, (lowerAfter before t).getLast? = some x ∧ Lowers c x := by
  induction t generalizing before with
  | nil => cases h
  | cons d t ih =>
    obtain ⟨x, more, he, hlowers⟩ := exists_lowerAfter_cons before d t
    rw [he, List.getLast?_append]
    cases t with
    | nil =>
      cases h
      refine ⟨(x :: more).getLast (List.cons_ne_nil x more), ?_, hlowers _ (List.getLast_mem _)⟩
      rw [lowerAfter, List.getLast?_nil, Option.none_or, List.getLast?_eq_some_getLast]
    | cons e t =>
      obtain ⟨y, hy, hl⟩ := @ih (d :: before) (by simpa using h)
      exact ⟨y, by rw [hy]; rfl, hl⟩

theorem lowercase_eq_nil_iff : lowercase t = [] ↔ t = [] := by
  constructor
  · intro h
    cases t with
    | nil => rfl
    | cons c t =>
      obtain ⟨x, hx, -⟩ := head?_lowercase (t := c :: t) rfl
      rw [h] at hx
      cases hx
  · intro h
    rw [h]
    rfl

end Folio.Text
