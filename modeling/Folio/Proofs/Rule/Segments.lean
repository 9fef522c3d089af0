import Folio.Proofs.Rule.Segment
import Folio.Proofs.Text.Pieces

/-!
# Patterns as lists of segments

A list of segments covers a list of names segment by segment, where a segment of two stars takes any
number of names. The glob that the segments are spelled as accepts exactly the paths whose names they
cover, with a last segment of two stars taking one name at least.
-/
namespace Folio.Segment
open Glob

/-- The segments take the names in order. Two stars take any number of names, and `least` at least when
they are the last segment. -/
inductive Covers (least : Nat) : List Text → List Text → Prop
  | nil : Covers least [] []
  | name {s n : Text} {segments names : List Text} (hs : s ≠ Rule.anyDirectories) (first : Takes s n)
      (rest : Covers least segments names) : Covers least (s :: segments) (n :: names)
  | any {segments names : List Text} (taken : List Text) (last : segments = [] → least ≤ taken.length)
      (rest : Covers least segments names) :
      Covers least (Rule.anyDirectories :: segments) (taken ++ names)

def allTokens : List Text → List Token
  | [] => []
  | [s] => if s = Rule.anyDirectories then [.globstar] else tokens s
  | s :: rest =>
    if s = Rule.anyDirectories then .globstar :: allTokens rest
    else tokens s ++ .single (.literal '/') :: allTokens rest

def spelling (s : Text) : Text := if s = Rule.anyDirectories then s else Rule.spellSegment s

variable {least : Nat} {s : Text} {segments names plain : List Text} {path : Text}

theorem spell_intercalate (hs : ∀ s ∈ segments, '/' ∉ s) (hne : segments ≠ []) :
    Rule.spell (['/'].intercalate segments) = ['/'].intercalate (segments.map spelling) := by
  rw [Rule.spell, List.splitOn_intercalate '/' hs hne]
  rfl

theorem allTokens_any (hne : segments ≠ []) :
    allTokens (Rule.anyDirectories :: segments) = .globstar :: allTokens segments := by
  cases segments with
  | nil => exact absurd rfl hne
  | cons t rest => rfl

theorem allTokens_name (hs : s ≠ Rule.anyDirectories) (hne : segments ≠ []) :
    allTokens (s :: segments) = tokens s ++ .single (.literal '/') :: allTokens segments := by
  cases segments with
  | nil => exact absurd rfl hne
  | cons t rest => simp [allTokens, hs]

theorem reads_spelling (hs : ∀ s ∈ segments, opensClass s = false) :
    Reads true (['/'].intercalate (segments.map spelling)) (allTokens segments) := by
  induction segments with
  | nil => exact Reads.nil
  | cons s rest ih =>
    have hr := ih fun t ht => hs t (by simp [ht])
    by_cases hne : rest = []
    · subst hne
      by_cases ha : s = Rule.anyDirectories
      · subst ha
        exact Reads.globstar_end
      · simpa [spelling, allTokens, ha] using
          reads_spellSegment (hs s (by simp)) (by simp) (fun _ => Reads.nil) true
    · have hmap : rest.map spelling ≠ [] := by simpa using hne
      rw [List.map_cons, Text.intercalate_cons hmap]
      by_cases ha : s = Rule.anyDirectories
      · subst ha
        rw [allTokens_any hne]
        exact Reads.globstar hr
      · have hslash : ∀ fresh, Reads fresh ('/' :: ['/'].intercalate (rest.map spelling))
            (.single (.literal '/') :: allTokens rest) :=
          fun fresh => Reads.plain (by simp [IsPlain]) hr
        rw [allTokens_name ha hne, spelling, if_neg ha]
        exact reads_spellSegment (hs s (by simp)) (by simp) hslash true

theorem covers_nil_iff : Covers least [] names ↔ names = [] := by
  constructor
  · intro h
    cases h
    rfl
  · intro he
    subst he
    exact .nil

theorem covers_name_iff (hs : s ≠ Rule.anyDirectories) :
    Covers least (s :: segments) names ↔
      ∃ n rest, names = n :: rest ∧ Takes s n ∧ Covers least segments rest := by
  constructor
  · intro h
    cases h with
    | name _ first rest => exact ⟨_, _, rfl, first, rest⟩
    | any taken last rest => exact absurd rfl hs
  · intro h
    obtain ⟨n, rest, rfl, first, h⟩ := h
    exact .name hs first h

theorem covers_any_iff : Covers least (Rule.anyDirectories :: segments) names ↔
    ∃ taken rest, names = taken ++ rest ∧ (segments = [] → least ≤ taken.length) ∧
      Covers least segments rest := by
  constructor
  · intro h
    cases h with
    | name hs first rest => exact absurd rfl hs
    | any taken last rest => exact ⟨taken, _, rfl, last, rest⟩
  · intro h
    obtain ⟨taken, rest, rfl, last, h⟩ := h
    exact .any taken last h

theorem covers_one_nil_iff : Covers 1 segments [] ↔ segments = [] := by
  constructor
  · intro h
    generalize he : ([] : List Text) = none at h
    induction h with
    | nil => rfl
    | name hs first rest ih => cases he
    | any taken last rest ih =>
      obtain ⟨rfl, rfl⟩ := List.append_eq_nil_iff.1 he.symm
      simpa using last (ih rfl)
  · intro he
    subst he
    exact .nil

theorem covers_append_plain_iff (hp : ∀ n ∈ plain, IsPlainName n) :
    Covers least (plain ++ segments) names ↔ ∃ below, names = plain ++ below ∧
      Covers least segments below := by
  induction plain generalizing names with
  | nil => simp
  | cons n plain ih =>
    have hn := hp n (by simp)
    have hany : n ≠ Rule.anyDirectories := by
      intro he
      subst he
      exact (hn.2 '*' (by simp [Rule.anyDirectories])).1 rfl
    rw [List.cons_append, covers_name_iff hany]
    simp only [takes_plainName_iff hn, ih fun m hm => hp m (by simp [hm])]
    constructor
    · intro h
      obtain ⟨_, _, rfl, rfl, below, rfl, h⟩ := h
      exact ⟨below, rfl, h⟩
    · intro h
      obtain ⟨below, rfl, h⟩ := h
      exact ⟨n, plain ++ below, rfl, rfl, below, rfl, h⟩

theorem covers_of_accepts_nil (hs : ∀ s ∈ segments, IsRegular s) (hn : [] ∉ segments)
    (hne : segments ≠ []) (h : accepts Rule.dots (allTokens segments) [] = true) (n : Text) :
    Covers 1 segments [n] := by
  induction segments with
  | nil => exact absurd rfl hne
  | cons s rest ih =>
    have hrest := ih (fun t ht => hs t (by simp [ht])) (fun ht => hn (by simp [ht]))
    by_cases ha : s = Rule.anyDirectories
    · subst ha
      by_cases hr : rest = []
      · subst hr
        exact Covers.any [n] (by simp) .nil
      · rw [allTokens_any hr, accepts_globstar_iff dots_unguarded] at h
        have hend : accepts Rule.dots (allTokens rest) [] = true := by
          rcases h with h | h | ⟨front, back, he, -⟩
          · exact h
          · exact h
          · simp at he
        exact Covers.any [] (fun he => absurd he hr) (hrest hr hend)
    · by_cases hr : rest = []
      · subst hr
        have hsn : s ≠ [] := fun he => hn (by simp [he])
        rw [allTokens, if_neg ha, ← List.append_nil (tokens s), accepts_tokens_iff (hs s (by simp))] at h
        obtain ⟨name, last, he, -, ht, -⟩ := h
        obtain ⟨rfl, rfl⟩ := List.append_eq_nil_iff.1 he.symm
        exact .name ha (takes_of_takes_nil hsn ht) .nil
      · rw [allTokens_name ha hr, accepts_tokens_iff (hs s (by simp))] at h
        obtain ⟨name, last, he, -, -, h⟩ := h
        obtain ⟨rfl, rfl⟩ := List.append_eq_nil_iff.1 he.symm
        rw [accepts_single_iff dots_unguarded] at h
        simp at h

section
variable (hs : ∀ s ∈ segments, IsRegular s) (hn : [] ∉ segments) (hslash : ∀ n ∈ names, '/' ∉ n)
  (hempty : [] ∉ names) (hne : names ≠ [])
include hs hn hslash hempty hne

theorem accepts_any_iff
    (ih : ∀ below, (∀ n ∈ below, '/' ∉ n) → [] ∉ below → below ≠ [] →
      (accepts Rule.dots (allTokens segments) (['/'].intercalate below) = true ↔
        Covers 1 segments below)) :
    accepts Rule.dots (allTokens (Rule.anyDirectories :: segments)) (['/'].intercalate names) = true ↔
      Covers 1 (Rule.anyDirectories :: segments) names := by
  by_cases hr : segments = []
  · subst hr
    constructor
    · intro _
      have hlen := List.length_pos_iff.2 hne
      simpa using Covers.any names (fun _ => hlen) (Covers.nil : Covers 1 [] [])
    · intro _
      exact (accepts_globstar_iff dots_unguarded).2 (.inr (.inl (accepts_nil_iff.2 rfl)))
  · rw [allTokens_any hr, accepts_globstar_iff dots_unguarded, covers_any_iff]
    constructor
    · intro h
      rcases h with h | h | ⟨a, b, he, h⟩
      · exact ⟨[], names, rfl, fun he => absurd he hr, (ih names hslash hempty hne).1 h⟩
      · exact ⟨names.dropLast, [names.getLast hne], (List.dropLast_concat_getLast hne).symm,
          fun he => absurd he hr, covers_of_accepts_nil hs hn hr h _⟩
      · obtain ⟨front, back, hf, hb, rfl, rfl, rfl⟩ := (Text.intercalate_eq_append_iff hslash).1 he
        have hback := ih back (fun n hm => hslash n (by simp [hm])) (fun hm => hempty (by simp [hm])) hb
        exact ⟨front, back, rfl, fun he => absurd he hr, hback.1 h⟩
    · intro h
      obtain ⟨taken, below, rfl, -, h⟩ := h
      by_cases hb : below = []
      · subst hb
        exact absurd (covers_one_nil_iff.1 h) hr
      · have hbelow := (ih below (fun n hm => hslash n (by simp [hm]))
          (fun hm => hempty (by simp [hm])) hb).2 h
        by_cases ht : taken = []
        · subst ht
          exact .inl hbelow
        · exact .inr (.inr ⟨_, _, Text.intercalate_append ht hb, hbelow⟩)

theorem accepts_name_iff (ha : s ≠ Rule.anyDirectories) (hreg : IsRegular s)
    (ih : ∀ below, (∀ n ∈ below, '/' ∉ n) → [] ∉ below → below ≠ [] →
      (accepts Rule.dots (allTokens segments) (['/'].intercalate below) = true ↔
        Covers 1 segments below)) :
    accepts Rule.dots (allTokens (s :: segments)) (['/'].intercalate names) = true ↔
      Covers 1 (s :: segments) names := by
  obtain ⟨n, below, rfl⟩ := List.exists_cons_of_ne_nil hne
  have hbelow : (∀ m ∈ below, '/' ∉ m) ∧ [] ∉ below :=
    ⟨fun m hm => hslash m (by simp [hm]), fun hm => hempty (by simp [hm])⟩
  rw [covers_name_iff ha]
  by_cases hr : segments = []
  · subst hr
    rw [allTokens, if_neg ha, ← List.append_nil (tokens s), accepts_tokens_iff hreg]
    simp only [accepts_nil_iff, covers_nil_iff]
    constructor
    · intro h
      obtain ⟨name, _, he, hname, ht, rfl⟩ := h
      rw [List.append_nil] at he
      have hb : n :: below = [name] := by
        rw [← List.splitOn_intercalate '/' hslash hne, he, List.splitOn_eq_singleton hname]
      cases hb
      exact ⟨n, [], rfl, ht, rfl⟩
    · intro h
      obtain ⟨m, rest, he, ht, rfl⟩ := h
      cases he
      exact ⟨n, [], by simp, hslash n (by simp), ht, rfl⟩
  · rw [allTokens_name ha hr, accepts_tokens_iff hreg]
    simp only [accepts_single_iff dots_unguarded, Single.takes, decide_eq_true_eq]
    constructor
    · intro h
      obtain ⟨name, _, he, hname, ht, _, rest, rfl, rfl, h⟩ := h
      obtain ⟨hb, rfl, rfl⟩ := (Text.intercalate_cons_eq_iff hslash hname).1 he
      exact ⟨name, below, rfl, ht, (ih below hbelow.1 hbelow.2 hb).1 h⟩
    · intro h
      obtain ⟨m, rest, he, ht, h⟩ := h
      cases he
      have hb : below ≠ [] := by
        intro he
        subst he
        exact hr (covers_one_nil_iff.1 h)
      exact ⟨n, _, Text.intercalate_cons hb, hslash n (by simp), ht, '/', _, rfl, rfl,
        (ih below hbelow.1 hbelow.2 hb).2 h⟩

end

/-- The glob of some segments accepts the paths that the segments cover. -/
theorem accepts_allTokens_iff (hs : ∀ s ∈ segments, IsRegular s) (hn : [] ∉ segments)
    (hslash : ∀ n ∈ names, '/' ∉ n) (hempty : [] ∉ names) (hne : names ≠ []) :
    accepts Rule.dots (allTokens segments) (['/'].intercalate names) = true ↔
      Covers 1 segments names := by
  induction segments generalizing names with
  | nil => rw [allTokens, accepts_nil_iff, Text.intercalate_eq_nil_iff hempty, covers_nil_iff]
  | cons s rest ih =>
    have hs' : ∀ t ∈ rest, IsRegular t := fun t ht => hs t (by simp [ht])
    have hn' : [] ∉ rest := fun ht => hn (by simp [ht])
    have hrest : ∀ below, (∀ n ∈ below, '/' ∉ n) → [] ∉ below → below ≠ [] →
        (accepts Rule.dots (allTokens rest) (['/'].intercalate below) = true ↔
          Covers 1 rest below) := fun _ => ih hs' hn'
    by_cases ha : s = Rule.anyDirectories
    · subst ha
      exact accepts_any_iff hs' hn' hslash hempty hne hrest
    · exact accepts_name_iff hs' hn' hslash hempty hne ha (hs s (by simp)) hrest

end Folio.Segment
