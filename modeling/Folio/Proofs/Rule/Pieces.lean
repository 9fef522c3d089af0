import Folio.Proofs.Rule.Bracket
import Folio.Proofs.Rule.Meaning

/-!
# Pieces of a segment

A segment is read into pieces: stars, question marks, letters and bracket expressions. The rule of a bare
line at the root, one without slashes, applies to a path exactly when one of the names on it is matched by
the pieces of the line.
-/
namespace Folio.Segment
open Glob

inductive Piece where
  | star
  | anything
  | letter (l : Letter)
  | bracket (b : Bracket)
  deriving DecidableEq

/-- The pieces of a segment. A backslash with nothing behind it stands for nothing. -/
def pieces? : Text → Option (List Piece)
  | [] => some []
  | ['\\'] => some []
  | '\\' :: c :: rest => (pieces? rest).map (.letter ⟨true, c⟩ :: ·)
  | '*' :: rest => (pieces? rest).map (.star :: ·)
  | '?' :: rest => (pieces? rest).map (.anything :: ·)
  | '[' :: rest =>
    match h : Bracket.read? rest with
    | some (b, after) =>
      have := length_lt_of_read? h
      (pieces? after).map (.bracket b :: ·)
    | none => none
  | c :: rest => (pieces? rest).map (.letter ⟨false, c⟩ :: ·)
termination_by t => t.length

def Piece.admits (c : Char) : Piece → Bool
  | .star => false
  | .anything => true
  | .letter l => c = l.char
  | .bracket b => b.admits c

/-- The names that pieces match: a star is any characters, any other piece is one that it stands for. -/
inductive Matches : List Piece → Text → Prop
  | nil : Matches [] []
  | star {ps : List Piece} {n : Text} (taken : Text) (rest : Matches ps n) :
      Matches (.star :: ps) (taken ++ n)
  | one {p : Piece} {ps : List Piece} {c : Char} {n : Text} (first : p.admits c = true)
      (rest : Matches ps n) : Matches (p :: ps) (c :: n)

namespace Piece

/-- A piece that the spelling keeps, and that does not stand for a slash alone. -/
def IsKept : Piece → Prop
  | .letter l => l.char ≠ '/'
  | .bracket b => b.IsKept
  | _ => True

def token : Piece → Token
  | .star => .star
  | .anything => .single .anything
  | .letter l =>
    .single (if l.escaped = true ∧ Rule.isSpecial l.char = true then .inside [.one l.char]
      else .literal l.char)
  | .bracket b => .single b.single

/-- The tokens that pieces are spelled as. Stars in a row count as one. -/
def tokens : List Piece → List Token
  | [] => []
  | .star :: .star :: ps => tokens (.star :: ps)
  | p :: ps => p.token :: tokens ps

end Piece

variable {s : Text} {ps : List Piece} {p : Piece} {n path : Text} {ts : List Token} {c : Char}

theorem matches_nil_iff : Matches [] n ↔ n = [] := by
  constructor
  · intro h
    cases h
    rfl
  · intro he
    subst he
    exact .nil

theorem matches_star_iff :
    Matches (.star :: ps) n ↔ ∃ taken rest, n = taken ++ rest ∧ Matches ps rest := by
  constructor
  · intro h
    cases h with
    | star taken rest => exact ⟨taken, _, rfl, rest⟩
    | one first rest => cases first
  · intro h
    obtain ⟨taken, rest, rfl, h⟩ := h
    exact .star taken h

theorem matches_one_iff (hp : p ≠ .star) :
    Matches (p :: ps) n ↔ ∃ c rest, n = c :: rest ∧ p.admits c = true ∧ Matches ps rest := by
  constructor
  · intro h
    cases h with
    | star taken rest => exact absurd rfl hp
    | one first rest => exact ⟨_, _, rfl, first, rest⟩
  · intro h
    obtain ⟨c, rest, rfl, first, h⟩ := h
    exact .one first h

/-- Stars in a row count as one. -/
theorem matches_star_star_iff : Matches (.star :: .star :: ps) n ↔ Matches (.star :: ps) n := by
  rw [matches_star_iff, matches_star_iff]
  constructor
  · intro h
    obtain ⟨taken, rest, rfl, h⟩ := h
    obtain ⟨more, last, rfl, hl⟩ := matches_star_iff.1 h
    exact ⟨taken ++ more, last, by simp, hl⟩
  · intro h
    obtain ⟨taken, rest, rfl, h⟩ := h
    exact ⟨taken, rest, rfl, .star [] h⟩

/-- Pieces that match the empty name are stars. -/
theorem matches_of_matches_nil (hps : ps ≠ []) (h : Matches ps []) : Matches ps n := by
  cases ps with
  | nil => exact absurd rfl hps
  | cons p ps =>
    by_cases hp : p = .star
    · subst hp
      obtain ⟨taken, rest, he, hrest⟩ := matches_star_iff.1 h
      obtain ⟨rfl, rfl⟩ := List.append_eq_nil_iff.1 he.symm
      exact matches_star_iff.2 ⟨n, [], by simp, hrest⟩
    · obtain ⟨c, rest, he, -⟩ := (matches_one_iff hp).1 h
      cases he

section Reading

theorem reads_bracket {b : Bracket} {t after : Text} {fresh : Bool} (h : Bracket.read? t = some (b, after))
    (hb : b.IsKept) (hafter : Reads false (Rule.spellSegment after) ts) :
    Reads fresh (Rule.spellSegment ('[' :: t)) (.single b.single :: ts) := by
  obtain ⟨hread, hform⟩ := eq_of_read? h
  have hmark : b.negated = false → ∀ l ∈ b.letters.head?, l.char ≠ '!' := by
    intro hn ⟨escaped, c⟩ hl hc
    obtain ⟨ls, hls⟩ := List.head?_eq_some_iff.1 hl
    simp only at hc
    subst hc
    cases escaped with
    | true => exact hb.mark hn hl
    | false =>
      obtain ⟨hneg, -⟩ | ⟨-, hfirst, -, rfl⟩ := hform
      · simp [hn] at hneg
      · rw [hls, head?_source] at hfirst
        exact hfirst rfl
  have hclass := readClass?_bracket hread hb hmark (Rule.spellSegment after)
  intro position
  rw [spellSegment_bracket h hb, parseFrom_class hclass, hafter]
  rfl

theorem head?_eq_star_iff (h : pieces? s = some ps) : s.head? = some '*' ↔ ∃ qs, ps = .star :: qs := by
  constructor
  · intro hs
    obtain ⟨rest, rfl⟩ := List.head?_eq_some_iff.1 hs
    rw [pieces?] at h
    obtain ⟨qs, -, rfl⟩ := Option.map_eq_some_iff.1 h
    exact ⟨qs, rfl⟩
  · intro h
    obtain ⟨qs, rfl⟩ := h
    fun_induction pieces? s <;> simp_all

theorem reads_pieces (h : pieces? s = some ps) (hkept : ∀ p ∈ ps, p.IsKept) (fresh : Bool) :
    Reads fresh (Rule.spellSegment s) (Piece.tokens ps) := by
  fun_induction pieces? s generalizing ps fresh with
  | case1 =>
    cases h
    exact Reads.nil
  | case2 =>
    cases h
    exact Reads.nil
  | case3 c rest ih =>
    obtain ⟨qs, hq, rfl⟩ := Option.map_eq_some_iff.1 h
    have hr := ih hq fun p hp => hkept p (by simp [hp])
    by_cases hc : Rule.isSpecial c
    · have hmark : c ≠ '!' := by
        rintro rfl
        simp [Rule.isSpecial] at hc
      simpa [Rule.spellSegment, hc, Piece.tokens, Piece.token] using Reads.class_ hmark (hr false)
    · have hplain : IsPlain c := by
        simp only [Rule.isSpecial, Bool.or_eq_true, decide_eq_true_eq, not_or] at hc
        exact ⟨hc.1.1.1, hc.1.1.2, hc.1.2⟩
      simpa [Rule.spellSegment, hc, Piece.tokens, Piece.token] using Reads.plain hplain (hr _)
  | case4 rest ih =>
    obtain ⟨qs, hq, rfl⟩ := Option.map_eq_some_iff.1 h
    have hr := ih hq fun p hp => hkept p (by simp [hp])
    by_cases hhead : rest.head? = some '*'
    · obtain ⟨rs, rfl⟩ := (head?_eq_star_iff hq).1 hhead
      obtain ⟨more, rfl⟩ := List.head?_eq_some_iff.1 hhead
      rw [Rule.spellSegment, Piece.tokens]
      exact hr fresh
    · have htokens : Piece.tokens (.star :: qs) = .star :: Piece.tokens qs := by
        rw [Piece.tokens]
        · rfl
        · intro rs _ he
          exact hhead ((head?_eq_star_iff hq).2 ⟨rs, he⟩)
      rw [spellSegment_star hhead, htokens]
      exact Reads.star (head?_spellSegment_ne hhead) (hr false)
  | case5 rest ih =>
    obtain ⟨qs, hq, rfl⟩ := Option.map_eq_some_iff.1 h
    exact Reads.anything (ih hq (fun p hp => hkept p (by simp [hp])) false)
  | case6 rest b after hread hlt ih =>
    obtain ⟨qs, hq, rfl⟩ := Option.map_eq_some_iff.1 h
    exact reads_bracket hread (hkept (.bracket b) (by simp)) (ih hq (fun p hp => hkept p (by simp [hp])) false)
  | case7 => cases h
  | case8 c rest h₁ h₂ h₃ h₄ h₅ ih =>
    obtain ⟨qs, hq, rfl⟩ := Option.map_eq_some_iff.1 h
    have hplain : IsPlain c := ⟨h₃, h₄, h₅⟩
    rw [spellSegment_cons h₃ h₅ (ne_backslash h₁ h₂)]
    exact Reads.plain hplain (ih hq (fun p hp => hkept p (by simp [hp])) _)

theorem mem_of_letter_mem {l : Letter} (h : pieces? s = some ps) (hl : .letter l ∈ ps) : l.char ∈ s := by
  fun_induction pieces? s generalizing ps with
  | case1 =>
    cases h
    simp at hl
  | case2 =>
    cases h
    simp at hl
  | case6 rest b after hread hlt ih =>
    obtain ⟨qs, hq, rfl⟩ := Option.map_eq_some_iff.1 h
    have hafter := ih hq (by simpa using hl)
    obtain ⟨-, ⟨-, c, -, rfl⟩ | ⟨-, -, -, rfl⟩⟩ := eq_of_read? hread
    · simp [hafter]
    · simp [hafter]
  | case7 => cases h
  | case3 c rest ih | case8 c rest h₁ h₂ h₃ h₄ h₅ ih =>
    obtain ⟨qs, hq, rfl⟩ := Option.map_eq_some_iff.1 h
    rcases List.mem_cons.1 hl with he | hl
    · cases he
      simp
    · simp [ih hq hl]
  | case4 rest ih | case5 rest ih =>
    obtain ⟨qs, hq, rfl⟩ := Option.map_eq_some_iff.1 h
    simp [ih hq (by simpa using hl)]

end Reading

section Matching

/-- A rule that is not kept to directories applies to a path when it takes the names at its front, down to
one of them. -/
theorem applies_iff_front {r : Rule} {isDirectory : Bool} (hp : [] ∉ path.splitOn '/')
    (hd : r.directoriesOnly = false) : r.applies path isDirectory = true ↔
      ∃ front back, front ≠ [] ∧ path.splitOn '/' = front ++ back ∧
        accepts Rule.dots r.tokens (['/'].intercalate front) = true := by
  have hancestors : ∀ q, q ∈ Rule.ancestors path ↔ ∃ front back, front ≠ [] ∧ back ≠ [] ∧
      path.splitOn '/' = front ++ back ∧ q = ['/'].intercalate front := by
    intro q
    rw [← Rule.mem_ancestors_intercalate (fun n hn => Text.notMem_of_mem_splitOn hn) hp,
      List.intercalate_splitOn]
  rw [Rule.applies, hd, Bool.or_eq_true, List.any_eq_true]
  simp only [Bool.not_false, Bool.true_or, Bool.true_and]
  constructor
  · intro h
    rcases h with h | ⟨q, hq, h⟩
    · exact ⟨path.splitOn '/', [], List.splitOn_ne_nil '/' path, (List.append_nil _).symm,
        by rwa [List.intercalate_splitOn]⟩
    · obtain ⟨front, back, hf, -, hs, rfl⟩ := (hancestors q).1 hq
      exact ⟨front, back, hf, hs, h⟩
  · intro h
    obtain ⟨front, back, hf, hs, h⟩ := h
    by_cases hb : back = []
    · subst hb
      rw [← List.append_nil front, ← hs, List.intercalate_splitOn] at h
      exact .inl h
    · exact .inr ⟨_, (hancestors _).2 ⟨front, back, hf, hb, hs, rfl⟩, h⟩

theorem exists_single (hp : p ≠ .star) (hkept : p.IsKept) : ∃ single, p.token = .single single ∧
    ∀ c, single.takes Rule.dots true c = true ↔ c ≠ '/' ∧ p.admits c = true := by
  cases p with
  | star => exact absurd rfl hp
  | anything => exact ⟨.anything, rfl, by simp [Single.takes, wild_unguarded, Piece.admits]⟩
  | letter l =>
    refine ⟨_, rfl, fun c => ?_⟩
    have hslash : l.char ≠ '/' := hkept
    have hself : c = l.char ↔ c ≠ '/' ∧ c = l.char := by
      constructor
      · rintro rfl
        exact ⟨hslash, rfl⟩
      · exact And.right
    rw [Piece.admits, decide_eq_true_eq, ← hself]
    split
    next hspecial => simpa [hspecial.2] using takes_escape_iff hslash c
    next => simp [Single.takes]
  | bracket b => exact ⟨b.single, rfl, fun c => takes_single_iff hkept⟩

theorem accepts_pieces_iff (hkept : ∀ p ∈ ps, p.IsKept) :
    accepts Rule.dots (Piece.tokens ps) path = true ↔ '/' ∉ path ∧ Matches ps path := by
  fun_induction Piece.tokens ps generalizing path with
  | case1 =>
    rw [accepts_nil_iff, matches_nil_iff]
    constructor
    · rintro rfl
      simp
    · exact And.right
  | case2 ps ih =>
    rw [ih fun p hp => hkept p (by simp_all), matches_star_star_iff]
  | case3 p ps hne ih =>
    have hrest : ∀ {path}, accepts Rule.dots (Piece.tokens ps) path = true ↔
        '/' ∉ path ∧ Matches ps path :=
      ih fun q hq => hkept q (by simp [hq])
    by_cases hp : p = .star
    · subst hp
      rw [Piece.token, accepts_star_iff dots_unguarded, matches_star_iff]
      simp only [hrest]
      constructor
      · intro h
        obtain ⟨taken, rest, rfl, ht, hr, hm⟩ := h
        exact ⟨by simp [ht, hr], taken, rest, rfl, hm⟩
      · intro h
        obtain ⟨hslash, taken, rest, rfl, hm⟩ := h
        simp only [List.mem_append, not_or] at hslash
        exact ⟨taken, rest, rfl, hslash.1, hslash.2, hm⟩
    · obtain ⟨single, htoken, htakes⟩ := exists_single hp (hkept p (by simp))
      rw [htoken, accepts_single_iff dots_unguarded, matches_one_iff hp]
      simp only [hrest, htakes]
      constructor
      · intro h
        obtain ⟨c, rest, rfl, ⟨hc, hadmits⟩, hr, hm⟩ := h
        exact ⟨by simp [hc.symm, hr], c, rest, rfl, hadmits, hm⟩
      · intro h
        obtain ⟨hslash, c, rest, rfl, hadmits, hm⟩ := h
        simp only [List.mem_cons, not_or] at hslash
        exact ⟨c, rest, rfl, ⟨Ne.symm hslash.1, hadmits⟩, hslash.2, hm⟩

variable (hkept : ∀ p ∈ ps, p.IsKept)
include hkept

/-- Behind a globstar the tokens accept a path by its last name. -/
theorem accepts_globstar_pieces_iff {front : List Text} {last : Text}
    (hs : path.splitOn '/' = front ++ [last]) :
    accepts Rule.dots (.globstar :: Piece.tokens ps) path = true ↔ Matches ps [] ∨ Matches ps last := by
  have hmem : last ∈ path.splitOn '/' := by simp [hs]
  have hlast := Text.notMem_of_mem_splitOn hmem
  rw [accepts_globstar_iff dots_unguarded]
  simp only [accepts_pieces_iff hkept]
  constructor
  · intro h
    rcases h with ⟨hslash, hm⟩ | ⟨-, hm⟩ | ⟨names, rest, rfl, hslash, hm⟩
    · rw [List.splitOn_eq_singleton hslash, ← List.nil_append [path]] at hs
      obtain ⟨-, he⟩ := List.append_inj' hs rfl
      cases he
      exact .inr hm
    · exact .inl hm
    · rw [List.splitOn_append_cons_self, List.splitOn_eq_singleton hslash] at hs
      obtain ⟨-, he⟩ := List.append_inj' hs rfl
      cases he
      exact .inr hm
  · intro h
    rcases h with hm | hm
    · exact .inr (.inl ⟨by simp, hm⟩)
    · have hpath : ['/'].intercalate (path.splitOn '/') = path := List.intercalate_splitOn '/'
      rw [hs] at hpath
      by_cases hf : front = []
      · subst hf
        exact .inl (by simpa [← hpath] using ⟨hlast, hm⟩)
      · rw [Text.intercalate_append hf (by simp)] at hpath
        exact .inr (.inr ⟨_, last, by simpa using hpath.symm, hlast, hm⟩)

/-- A rule of pieces at any depth applies to a path when one of the names on it is matched. Without pieces
it applies everywhere. -/
theorem applies_anywhere_iff {r : Rule} {isDirectory : Bool}
    (ht : r.tokens = .globstar :: Piece.tokens ps) (hd : r.directoriesOnly = false)
    (hp : [] ∉ path.splitOn '/') : r.applies path isDirectory = true ↔
      ps = [] ∨ ∃ n ∈ path.splitOn '/', Matches ps n := by
  have hfront : ∀ front back, front ≠ [] → path.splitOn '/' = front ++ back →
      (['/'].intercalate front).splitOn '/' = front := by
    intro front back hf hs
    refine List.splitOn_intercalate '/' (fun n hn => ?_) hf
    have hmem : n ∈ path.splitOn '/' := by simp [hs, hn]
    exact Text.notMem_of_mem_splitOn hmem
  rw [applies_iff_front hp hd, ht]
  constructor
  · intro h
    obtain ⟨front, back, hf, hs, h⟩ := h
    have hlast := hfront front back hf hs
    rw [accepts_globstar_pieces_iff hkept (hlast.trans (List.dropLast_concat_getLast hf).symm)] at h
    rcases h with hm | hm
    · by_cases hps : ps = []
      · exact .inl hps
      · exact .inr ⟨front.getLast hf, by simp [hs, List.getLast_mem], matches_of_matches_nil hps hm⟩
    · exact .inr ⟨front.getLast hf, by simp [hs, List.getLast_mem], hm⟩
  · intro h
    rcases h with rfl | ⟨n, hn, hm⟩
    · have hne := List.splitOn_ne_nil '/' path
      have hlast := hfront _ [] hne (List.append_nil _).symm
      exact ⟨_, [], hne, (List.append_nil _).symm, (accepts_globstar_pieces_iff hkept
        (hlast.trans (List.dropLast_concat_getLast hne).symm)).2 (.inl .nil)⟩
    · obtain ⟨front, back, hs⟩ := List.append_of_mem hn
      have hsplit : path.splitOn '/' = (front ++ [n]) ++ back := by simp [hs]
      have hlast := hfront _ back (by simp) hsplit
      exact ⟨_, back, by simp, hsplit, (accepts_globstar_pieces_iff hkept hlast).2 (.inr hm)⟩

end Matching
end Folio.Segment

namespace Folio.Line
open Segment Glob

variable {line text : Text} {pieces : List Piece} {ts : List Token}

theorem bare_segments (hslash : '/' ∉ content line) : unanchored line = content line ∧
    segments line = [Rule.anyDirectories, content line] := by
  have hhead : (content line).head? ≠ some '/' := fun h => hslash (List.mem_of_mem_head? h)
  have hlast : (content line).getLast? ≠ some '/' := fun h => hslash (List.mem_of_getLast? h)
  have hu : unanchored line = content line := by
    rw [unanchored, Text.afterFirst?_eq_none_iff.2 hhead, Option.getD_none]
  have hb : body line = content line := by simp [body, hu, Text.beforeLast?, hlast]
  exact ⟨hu, by rw [segments, hb, if_pos ⟨hhead, hslash⟩]⟩

theorem content_ne_nil {l : Line} (h : read? line = some l) : content line ≠ [] := by
  intro hc
  have hu : unanchored line = [] := by
    rw [unanchored, hc]
    rfl
  exact read?_pattern_ne_nil h ((eq_of_read? h).2.trans hu)

theorem intercalate_bare (t : Text) :
    ['/'].intercalate [Rule.anyDirectories, t] = '*' :: '*' :: '/' :: t := by
  rw [Text.intercalate_cons (by simp)]
  simp [Rule.anyDirectories]

theorem ruleText_bare {l : Line} (h : read? line = some l) (hslash : '/' ∉ content line) :
    l.ruleText Path.rootName =
      (if l.negated then ['!'] else []) ++ '*' :: '*' :: '/' :: content line := by
  obtain ⟨hu, hs⟩ := bare_segments hslash
  have hlast : (content line).getLast? ≠ some '/' := fun h => hslash (List.mem_of_getLast? h)
  have htext : l.ruleText Path.rootName = _ := ruleText_eq h
  rwa [directoryNames, if_pos rfl, List.nil_append, hu, if_neg hlast, List.append_nil, hs,
    intercalate_bare] at htext

/-- The rule of a line without slashes at the root is a globstar with the tokens of the line behind it. -/
theorem compile_bare {l : Line} (h : read? line = some l) (hslash : '/' ∉ content line)
    (hr : Reads true (spelling (content line)) ts) :
    Rule.compile (l.ruleText Path.rootName) =
      .ok ⟨l.ruleText Path.rootName, l.negated, false, .globstar :: ts⟩ := by
  have hend : ('*' :: '*' :: '/' :: content line).getLast? ≠ some '/' := by
    obtain ⟨c, rest, hc⟩ := List.exists_cons_of_ne_nil (content_ne_nil h)
    have hlast : (content line).getLast? ≠ some '/' := fun h => hslash (List.mem_of_getLast? h)
    simpa [hc] using hlast
  have hparts := Rule.parts_mark l.negated (t := '*' :: '*' :: '/' :: content line) (by simp) (by simp)
  rw [Text.beforeLast?, if_neg hend, Option.getD_none] at hparts
  have hspell : Rule.spell ('*' :: '*' :: '/' :: content line) =
      '*' :: '*' :: '/' :: spelling (content line) := by
    rw [← intercalate_bare, spell_intercalate (by simpa [Rule.anyDirectories] using hslash) (by simp)]
    exact intercalate_bare _
  have hparse : Glob.parse ('*' :: '*' :: '/' :: spelling (content line)) = .ok (.globstar :: ts) :=
    Reads.globstar hr 0
  simp only [Rule.compile, ruleText_bare h hslash, hparts, hspell, hparse, hend]
  rfl

/-- A second globstar in the place of a name leaves nothing out. -/
theorem accepts_two_globstars (path : Text) : accepts Rule.dots [.globstar, .globstar] path = true := by
  have hlast : accepts Rule.dots [.globstar] [] = true :=
    (accepts_globstar_iff dots_unguarded).2 (.inl (accepts_nil_iff.2 rfl))
  exact (accepts_globstar_iff dots_unguarded).2 (.inr (.inl hlast))

section
variable (ht : ruleOfLine? Path.rootName line = some text) (hslash : '/' ∉ content line)
  (hp : pieces? (content line) = some pieces) (hkept : ∀ b, .bracket b ∈ pieces → b.IsKept)
include ht hslash hp hkept

/-- The rule of a line without slashes, read as pieces. A line without pieces is about everything. -/
theorem exists_compile_pieces : ∃ rule, Rule.compile text = .ok rule ∧
    ∀ (path : Text) (isDirectory : Bool), [] ∉ path.splitOn '/' →
      (rule.applies path isDirectory = true ↔
        pieces = [] ∨ ∃ n ∈ path.splitOn '/', Matches pieces n) := by
  obtain ⟨l, hl, rfl⟩ := Option.map_eq_some_iff.1 ht
  by_cases ha : content line = Rule.anyDirectories
  · have hstars : pieces = [.star, .star] := by
      rw [ha, Rule.anyDirectories] at hp
      simpa [pieces?] using hp.symm
    have hreads : Reads true (spelling (content line)) [.globstar] := by
      rw [spelling, if_pos ha, ha]
      exact Reads.globstar_end
    refine ⟨_, compile_bare hl hslash hreads, fun path isDirectory _ => ?_⟩
    obtain ⟨n, rest, hn⟩ := List.exists_cons_of_ne_nil (List.splitOn_ne_nil '/' path)
    have hall : ∃ n ∈ path.splitOn '/', Matches pieces n := by
      refine ⟨n, by simp [hn], ?_⟩
      rw [hstars, matches_star_star_iff]
      exact matches_star_iff.2 ⟨n, [], by simp, .nil⟩
    simp [Rule.applies, accepts_two_globstars, hall]
  · have hkeptAll : ∀ p ∈ pieces, p.IsKept := by
      intro p hm
      cases p with
      | star => trivial
      | anything => trivial
      | letter l =>
        intro hc
        exact hslash (hc ▸ mem_of_letter_mem hp hm)
      | bracket b => exact hkept b hm
    have hreads : Reads true (spelling (content line)) (Piece.tokens pieces) := by
      rw [spelling, if_neg ha]
      exact reads_pieces hp hkeptAll true
    exact ⟨_, compile_bare hl hslash hreads, fun path isDirectory => applies_anywhere_iff hkeptAll rfl rfl⟩

/-- A line without slashes at the root stands for a rule that compiles. Where its brackets are kept, the
rule applies to a path exactly when one of the names on it is matched by the pieces of the line. -/
theorem applies_iff_matches (hne : pieces ≠ []) : ∃ rule, Rule.compile text = .ok rule ∧
    ∀ (path : Text) (isDirectory : Bool), [] ∉ path.splitOn '/' →
      (rule.applies path isDirectory = true ↔ ∃ n ∈ path.splitOn '/', Matches pieces n) := by
  simpa [hne] using exists_compile_pieces ht hslash hp hkept

end

theorem applies_iff_matches_marked :
    let line := " !\\*[^a-c*][]\\x[] ".toList
    let pieces : List Piece := [.letter ⟨true, '*'⟩,
      .bracket ⟨true, [⟨false, 'a'⟩, ⟨false, '-'⟩, ⟨false, 'c'⟩, ⟨false, '*'⟩]⟩,
      .bracket ⟨false, [⟨false, ']'⟩, ⟨true, 'x'⟩, ⟨false, '['⟩]⟩]
    ruleOfLine? Path.rootName line = some "!**/\\*[^a-c*][]\\x[]".toList ∧ '/' ∉ content line ∧
      pieces? (content line) = some pieces ∧ (∀ b, .bracket b ∈ pieces → b.IsKept) ∧ pieces ≠ [] ∧
      [] ∉ "*d]".toList.splitOn '/' ∧ Matches pieces "*d]".toList ∧
      ∃ rule, Rule.compile "!**/\\*[^a-c*][]\\x[]".toList = .ok rule ∧
        (rule.applies "*d]".toList false = true ↔ ∃ n ∈ "*d]".toList.splitOn '/', Matches pieces n) := by
  intro line pieces
  have ht : ruleOfLine? Path.rootName line = some "!**/\\*[^a-c*][]\\x[]".toList := by decide
  have hslash : '/' ∉ content line := by decide
  have hp : pieces? (content line) = some pieces := by decide +kernel
  have hkept : ∀ b, .bracket b ∈ pieces → b.IsKept := by
    intro b hb
    simp only [pieces, List.mem_cons, Piece.bracket.injEq, reduceCtorEq, List.not_mem_nil, false_or,
      or_false] at hb
    rcases hb with rfl | rfl
    · exact ⟨by decide, by decide, by simp [Bracket.Apart], by simp [Bracket.HasPlainDashes]⟩
    · exact ⟨by decide, by decide, by simp [Bracket.Apart], by simp [Bracket.HasPlainDashes]⟩
  have hm : Matches pieces "*d]".toList :=
    .one (by decide) (.one (by decide) (.one (by decide) .nil))
  have hempty : [] ∉ "*d]".toList.splitOn '/' := by decide
  obtain ⟨rule, hc, hiff⟩ := applies_iff_matches ht hslash hp hkept (by simp [pieces])
  exact ⟨ht, hslash, hp, hkept, by simp [pieces], hempty, hm, rule, hc, hiff _ false hempty⟩

/-- An escaped closing bracket ends its class. The bracket of `[\]a]` stands for `a`, but the rule takes
names of four characters. -/
theorem not_applies_escaped :
    let pieces : List Piece := [.bracket ⟨false, [⟨true, ']'⟩, ⟨false, 'a'⟩]⟩]
    ruleOfLine? Path.rootName "[\\]a]".toList = some "**/[\\]a]".toList ∧
      '/' ∉ content "[\\]a]".toList ∧ pieces? (content "[\\]a]".toList) = some pieces ∧
      Matches pieces "a".toList ∧
      ∃ rule, Rule.compile "**/[\\]a]".toList = .ok rule ∧ rule.applies "a".toList false = false := by
  intro pieces
  have hp : pieces? (content "[\\]a]".toList) = some pieces := by decide +kernel
  have hm : Matches pieces "a".toList := .one (by decide) .nil
  have hc : Rule.compile "**/[\\]a]".toList = .ok ⟨"**/[\\]a]".toList, false, false, [.globstar,
      .single (.inside [.one '[']), .single (.literal ']'), .single (.literal 'a'),
      .single (.literal ']')]⟩ := by
    decide +kernel
  exact ⟨by decide, by decide, hp, hm, _, hc, by decide⟩

end Folio.Line
