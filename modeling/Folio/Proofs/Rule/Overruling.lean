import Folio.Proofs.Rule.Verdict

/-!
# One rule more

What a rule text makes of a verdict either is the verdict of its own rule or leaves everything as it was. So
a verdict that is told forward can be followed past a text that is put in between: the verdicts with it and
without it differ at most in one direction, and a text that stands again further back has no say at all.
-/
namespace Folio.Ruleset
variable {path text : Text} {isDirectory : Bool} {v w : Verdict} {texts front back : List Text} {r : Rule}

theorem overrule_of_applies (hc : Rule.compile text = .ok r) (ha : r.applies path isDirectory = true) :
    overrule path isDirectory v text = r.verdict := by
  simp only [overrule, hc, ha, if_true, Rule.verdict, Rule.text_of_compile hc]

theorem exists_of_not_isSilent (h : ¬ IsSilent path isDirectory text) :
    ∃ r, Rule.compile text = .ok r ∧ r.applies path isDirectory = true := by
  unfold IsSilent at h
  push Not at h
  simpa using h

/-- A text that is not silent has the last word so far. -/
theorem overrule_congr (h : ¬ IsSilent path isDirectory text) (v w : Verdict) :
    overrule path isDirectory v text = overrule path isDirectory w text := by
  obtain ⟨r, hc, ha⟩ := exists_of_not_isSilent h
  rw [overrule_of_applies hc ha, overrule_of_applies hc ha]

/-- The last word is the one there was before, or it is that of one of the texts. -/
theorem foldl_overrule_eq_or (texts : List Text) (v : Verdict) :
    texts.foldl (overrule path isDirectory) v = v ∨ ∃ text ∈ texts, ∃ r, Rule.compile text = .ok r ∧
      r.applies path isDirectory = true ∧ texts.foldl (overrule path isDirectory) v = r.verdict := by
  induction texts generalizing v with
  | nil => exact .inl rfl
  | cons text texts ih =>
    rw [List.foldl_cons]
    rcases ih (overrule path isDirectory v text) with h | ⟨t, ht, r, hc, ha, h⟩
    · by_cases hsilent : IsSilent path isDirectory text
      · exact .inl (h.trans (overrule_of_isSilent hsilent))
      · obtain ⟨r, hc, ha⟩ := exists_of_not_isSilent hsilent
        exact .inr ⟨text, List.mem_cons_self, r, hc, ha, h.trans (overrule_of_applies hc ha)⟩
    · exact .inr ⟨t, List.mem_cons_of_mem _ ht, r, hc, ha, h⟩

/-- A text that stands among later ones has no say in front of them. -/
theorem foldl_overrule_of_mem (h : text ∈ texts) (v : Verdict) :
    texts.foldl (overrule path isDirectory) (overrule path isDirectory v text) =
      texts.foldl (overrule path isDirectory) v := by
  by_cases hsilent : IsSilent path isDirectory text
  · rw [overrule_of_isSilent hsilent]
  · obtain ⟨front, back, rfl⟩ := List.append_of_mem h
    rw [List.foldl_append, List.foldl_append, List.foldl_cons, List.foldl_cons]
    exact congrArg (back.foldl (overrule path isDirectory)) (overrule_congr hsilent _ _)

/-- If a verdict excludes only where another one does, it is still so after the same texts. -/
theorem isExcluded_foldl_overrule (h : v.isExcluded = true → w.isExcluded = true) :
    (texts.foldl (overrule path isDirectory) v).isExcluded = true →
      (texts.foldl (overrule path isDirectory) w).isExcluded = true := by
  induction texts generalizing v w with
  | nil => exact h
  | cons text texts ih =>
    refine ih ?_
    by_cases hsilent : IsSilent path isDirectory text
    · rwa [overrule_of_isSilent hsilent, overrule_of_isSilent hsilent]
    · rw [overrule_congr hsilent v w]
      exact id

theorem verdict_insert (front back : List Text) (text : Text) :
    (ofTexts (front ++ [text] ++ back)).verdict path isDirectory =
      back.foldl (overrule path isDirectory)
        (overrule path isDirectory ((ofTexts front).verdict path isDirectory) text) := by
  rw [verdict_ofTexts, verdict_ofTexts, List.foldl_append, List.foldl_append, List.foldl_cons,
    List.foldl_nil]

theorem verdict_append (front back : List Text) :
    (ofTexts (front ++ back)).verdict path isDirectory =
      back.foldl (overrule path isDirectory) ((ofTexts front).verdict path isDirectory) := by
  rw [verdict_ofTexts, verdict_ofTexts, List.foldl_append]

section
variable (hc : Rule.compile text = .ok r)
include hc

theorem isExcluded_insert_exclusion (hn : r.negated = false)
    (h : ((ofTexts (front ++ back)).verdict path isDirectory).isExcluded = true) :
    ((ofTexts (front ++ [text] ++ back)).verdict path isDirectory).isExcluded = true := by
  rw [verdict_append] at h
  rw [verdict_insert]
  refine isExcluded_foldl_overrule (fun hfront => ?_) h
  cases ha : r.applies path isDirectory with
  | true => simp [overrule_of_applies hc ha, Rule.verdict, hn, Verdict.isExcluded]
  | false => simpa [overrule, hc, ha] using hfront

theorem isExcluded_of_insert_negation (hn : r.negated = true)
    (h : ((ofTexts (front ++ [text] ++ back)).verdict path isDirectory).isExcluded = true) :
    ((ofTexts (front ++ back)).verdict path isDirectory).isExcluded = true := by
  rw [verdict_insert] at h
  rw [verdict_append]
  refine isExcluded_foldl_overrule (fun hfront => ?_) h
  cases ha : r.applies path isDirectory with
  | true => simp [overrule_of_applies hc ha, Rule.verdict, hn, Verdict.isExcluded] at hfront
  | false => simpa [overrule, hc, ha] using hfront

end

/-- A text that is no rule, or that stands again further back, changes no verdict. -/
theorem verdict_insert_of_overruled (h : (∀ r, Rule.compile text ≠ .ok r) ∨ text ∈ back) :
    (ofTexts (front ++ [text] ++ back)).verdict path isDirectory =
      (ofTexts (front ++ back)).verdict path isDirectory := by
  rw [verdict_insert, verdict_append]
  rcases h with h | h
  · rw [overrule_of_isSilent fun r hc => absurd hc (h r)]
  · exact foldl_overrule_of_mem h _

end Folio.Ruleset
