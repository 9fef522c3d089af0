import Mathlib.Data.List.Chain
import Folio.Proofs.Glob.Escape
import Folio.Proofs.Rule.Segment
import Folio.Proofs.Text.Pieces

/-!
# Bracket expressions

A bracket expression stands for one character that is among its letters, or for one that is not. A segment
is spelled without regard to brackets before its glob is read. Where the spelling leaves the letters of a
bracket alone, the class that is read from the glob takes what the bracket stands for.
-/
namespace Folio.Segment
open Glob

/-- A character of a segment, as it stands or behind a backslash. -/
structure Letter where
  escaped : Bool
  char : Char
  deriving DecidableEq

structure Bracket where
  negated : Bool
  letters : List Letter
  deriving DecidableEq

/-- Whether a character is among the letters. A dash between two letters makes a range of them. -/
def isAmong (c : Char) : List Letter → Bool
  | ⟨false, first⟩ :: ⟨false, '-'⟩ :: ⟨false, last⟩ :: rest =>
    (first ≤ c && c ≤ last) || isAmong c rest
  | l :: rest => c = l.char || isAmong c rest
  | [] => false

namespace Bracket

def admits (b : Bracket) (c : Char) : Bool := isAmong c b.letters != b.negated

def letters? : Text → Option (List Letter × Text)
  | [] => none
  | ']' :: rest => some ([], rest)
  | ['\\'] => none
  | '\\' :: c :: rest => (letters? rest).map fun (ls, after) => (⟨true, c⟩ :: ls, after)
  | c :: rest => (letters? rest).map fun (ls, after) => (⟨false, c⟩ :: ls, after)

def someLetters? : Text → Option (List Letter × Text)
  | ']' :: rest => (letters? rest).map fun (ls, after) => (⟨false, ']'⟩ :: ls, after)
  | t => letters? t

/-- The bracket expression behind an opening bracket, and the text after it. -/
def read? : Text → Option (Bracket × Text)
  | '!' :: rest => (someLetters? rest).map fun (ls, after) => (⟨true, ls⟩, after)
  | '^' :: rest => (someLetters? rest).map fun (ls, after) => (⟨true, ls⟩, after)
  | t => (someLetters? t).map fun (ls, after) => (⟨false, ls⟩, after)

/-- Two letters that the spelling leaves side by side. -/
def Apart (l m : Letter) : Prop :=
  ¬ (l = ⟨false, '['⟩ ∧ m = ⟨false, '^'⟩) ∧ ¬ (l = ⟨false, '*'⟩ ∧ m = ⟨false, '*'⟩)

/-- No letter is escaped where a dash stands between two. -/
def HasPlainDashes : List Letter → Prop
  | l :: m :: k :: rest =>
    (m.char = '-' → l.escaped = false ∧ m.escaped = false ∧ k.escaped = false) ∧
      HasPlainDashes (m :: k :: rest)
  | _ => True

/-- A bracket that the spelling keeps. No letter that means something in a pattern is escaped, no caret follows
an opening bracket and no star a star. An escaped exclamation mark does not stand where it would negate. -/
structure IsKept (b : Bracket) : Prop where
  escapes : ∀ l ∈ b.letters, l.escaped = true → Rule.isSpecial l.char = false
  mark : b.negated = false → b.letters.head? ≠ some ⟨true, '!'⟩
  apart : b.letters.IsChain Apart
  dashes : HasPlainDashes b.letters

def single (b : Bracket) : Single :=
  let ms := members (b.letters.map Letter.char)
  if b.negated then .outside ms else .inside ms

end Bracket

def Letter.source (l : Letter) : Text := if l.escaped then ['\\', l.char] else [l.char]

open Folio.Segment.Bracket

variable {t u after : Text} {ls : List Letter} {l : Letter} {b : Bracket} {c : Char}

section Reading

/-- A letter that no backslash is written for is no backslash. -/
def IsWritten (l : Letter) : Prop := l.escaped = false → l.char ≠ '\\'

theorem eq_of_letters? (h : letters? t = some (ls, after)) :
    t = ls.flatMap Letter.source ++ ']' :: after ∧ (∀ l ∈ ls, IsWritten l) ∧ ⟨false, ']'⟩ ∉ ls := by
  fun_induction letters? t generalizing ls with
  | case1 => cases h
  | case2 rest =>
    cases h
    simp
  | case3 => cases h
  | case4 c rest ih =>
    obtain ⟨⟨ms, more⟩, hr, he⟩ := Option.map_eq_some_iff.1 h
    cases he
    obtain ⟨rfl, hwritten, hclosed⟩ := ih hr
    refine ⟨by simp [Letter.source], ?_, by simp [hclosed]⟩
    intro l hl
    rcases List.mem_cons.1 hl with rfl | hl
    · intro he
      cases he
    · exact hwritten l hl
  | case5 c rest hclose hlast hescape ih =>
    obtain ⟨⟨ms, more⟩, hr, he⟩ := Option.map_eq_some_iff.1 h
    cases he
    obtain ⟨rfl, hwritten, hclosed⟩ := ih hr
    refine ⟨by simp [Letter.source], ?_, by simp [hclosed, Ne.symm hclose]⟩
    intro l hl
    rcases List.mem_cons.1 hl with rfl | hl
    · intro _
      exact ne_backslash hlast hescape
    · exact hwritten l hl

/-- The letters of a bracket as they were read: only the first may be a closing bracket. -/
structure AreRead (ls : List Letter) : Prop where
  some : ls ≠ []
  written : ∀ l ∈ ls, IsWritten l
  closed : ⟨false, ']'⟩ ∉ ls.tail

theorem eq_of_someLetters? (h : someLetters? t = some (ls, after)) :
    t = ls.flatMap Letter.source ++ ']' :: after ∧ AreRead ls := by
  unfold someLetters? at h
  split at h
  · obtain ⟨⟨ms, more⟩, hr, he⟩ := Option.map_eq_some_iff.1 h
    cases he
    obtain ⟨rfl, hwritten, hclosed⟩ := eq_of_letters? hr
    refine ⟨by simp [Letter.source], by simp, ?_, hclosed⟩
    intro l hl
    rcases List.mem_cons.1 hl with rfl | hl
    · intro _
      decide
    · exact hwritten l hl
  next hfirst =>
    obtain ⟨rfl, hwritten, hclosed⟩ := eq_of_letters? h
    refine ⟨rfl, ?_, hwritten, fun hm => hclosed (List.mem_of_mem_tail hm)⟩
    intro hls
    subst hls
    exact hfirst after rfl

theorem eq_of_read? (h : Bracket.read? t = some (b, after)) :
    AreRead b.letters ∧ ((b.negated = true ∧ ∃ c, (c = '!' ∨ c = '^') ∧
        t = c :: (b.letters.flatMap Letter.source ++ ']' :: after)) ∨
      (b.negated = false ∧ t.head? ≠ some '!' ∧ t.head? ≠ some '^' ∧
        t = b.letters.flatMap Letter.source ++ ']' :: after)) := by
  unfold Bracket.read? at h
  split at h
  · obtain ⟨⟨ms, more⟩, hr, he⟩ := Option.map_eq_some_iff.1 h
    cases he
    obtain ⟨rfl, hread⟩ := eq_of_someLetters? hr
    exact ⟨hread, .inl ⟨rfl, '!', .inl rfl, rfl⟩⟩
  · obtain ⟨⟨ms, more⟩, hr, he⟩ := Option.map_eq_some_iff.1 h
    cases he
    obtain ⟨rfl, hread⟩ := eq_of_someLetters? hr
    exact ⟨hread, .inl ⟨rfl, '^', .inr rfl, rfl⟩⟩
  next hmark hcaret =>
    obtain ⟨⟨ms, more⟩, hr, he⟩ := Option.map_eq_some_iff.1 h
    cases he
    have hhead : t.head? ≠ some '!' ∧ t.head? ≠ some '^' := by
      refine ⟨fun hh => ?_, fun hh => ?_⟩
      · obtain ⟨rest, rfl⟩ := List.head?_eq_some_iff.1 hh
        exact hmark rest rfl
      · obtain ⟨rest, rfl⟩ := List.head?_eq_some_iff.1 hh
        exact hcaret rest rfl
    obtain ⟨ht, hread⟩ := eq_of_someLetters? hr
    exact ⟨hread, .inr ⟨rfl, hhead.1, hhead.2, ht⟩⟩

theorem length_lt_of_read? (h : Bracket.read? t = some (b, after)) : after.length < t.length := by
  obtain ⟨-, ⟨-, c, -, rfl⟩ | ⟨-, -, -, rfl⟩⟩ := eq_of_read? h
  · simp only [List.length_cons, List.length_append]
    omega
  · simp only [List.length_cons, List.length_append]
    omega

end Reading

section Spelling

theorem spellSegment_open (ht : t.head? ≠ some '^') :
    Rule.spellSegment ('[' :: t) = '[' :: Rule.spellSegment t := by
  rw [Rule.spellSegment]
  all_goals
    intros
    simp_all

theorem spellSegment_star (ht : t.head? ≠ some '*') :
    Rule.spellSegment ('*' :: t) = '*' :: Rule.spellSegment t := by
  rw [Rule.spellSegment]
  all_goals
    intros
    simp_all

theorem spellSegment_escaped (hc : Rule.isSpecial c = false) :
    Rule.spellSegment ('\\' :: c :: t) = c :: Rule.spellSegment t := by
  simp [Rule.spellSegment, hc]

theorem head?_source (l : Letter) (ls : List Letter) (t : Text) :
    ((l :: ls).flatMap Letter.source ++ t).head? = some (if l.escaped then '\\' else l.char) := by
  rw [List.flatMap_cons, Letter.source]
  split <;> rfl

theorem spellSegment_letters (hwritten : ∀ l ∈ ls, IsWritten l)
    (hescapes : ∀ l ∈ ls, l.escaped = true → Rule.isSpecial l.char = false)
    (hapart : ls.IsChain Apart) (after : Text) :
    Rule.spellSegment (ls.flatMap Letter.source ++ ']' :: after) =
      ls.map Letter.char ++ ']' :: Rule.spellSegment after := by
  induction ls with
  | nil => exact spellSegment_cons (by decide) (by decide) (by decide)
  | cons l ls ih =>
    have hrest := ih (fun m hm => hwritten m (by simp [hm])) (fun m hm => hescapes m (by simp [hm]))
      (List.isChain_cons.1 hapart).2
    obtain ⟨escaped, c⟩ := l
    cases escaped with
    | true =>
      have hspecial := hescapes ⟨true, c⟩ (by simp) rfl
      have hsource : (⟨true, c⟩ :: ls).flatMap Letter.source ++ ']' :: after =
          '\\' :: c :: (ls.flatMap Letter.source ++ ']' :: after) := by simp [Letter.source]
      rw [hsource, spellSegment_escaped hspecial, hrest]
      rfl
    | false =>
      have hback : c ≠ '\\' := hwritten ⟨false, c⟩ (by simp) rfl
      have hsource : (⟨false, c⟩ :: ls).flatMap Letter.source ++ ']' :: after =
          c :: (ls.flatMap Letter.source ++ ']' :: after) := by simp [Letter.source]
      -- the next character would have to be written for the next letter
      have hnext : ∀ d, d ≠ ']' → d ≠ '\\' → (∀ m, ls.head? = some m → m ≠ ⟨false, d⟩) →
          (ls.flatMap Letter.source ++ ']' :: after).head? ≠ some d := by
        intro d hclose hslash hm
        cases ls with
        | nil => simpa using hclose.symm
        | cons m ls =>
          obtain ⟨e, m⟩ := m
          rw [head?_source]
          cases e with
          | true => simpa using hslash.symm
          | false => simpa using fun he : m = d => hm ⟨false, m⟩ rfl (he ▸ rfl)
      have hpair : ∀ m, ls.head? = some m → Apart ⟨false, c⟩ m := (List.isChain_cons.1 hapart).1
      rw [hsource]
      by_cases hopen : c = '['
      · subst hopen
        rw [spellSegment_open (hnext '^' (by decide) (by decide) fun m hm he => (hpair m hm).1 ⟨rfl, he⟩),
          hrest]
        rfl
      · by_cases hstar : c = '*'
        · subst hstar
          rw [spellSegment_star
            (hnext '*' (by decide) (by decide) fun m hm he => (hpair m hm).2 ⟨rfl, he⟩), hrest]
          rfl
        · rw [spellSegment_cons hstar hopen hback, hrest]
          rfl

theorem spellSegment_bracket (h : Bracket.read? t = some (b, after)) (hb : b.IsKept) :
    Rule.spellSegment ('[' :: t) = '[' :: ((if b.negated then ['!'] else []) ++
      (b.letters.map Letter.char ++ ']' :: Rule.spellSegment after)) := by
  obtain ⟨hread, ⟨hn, c, hc, rfl⟩ | ⟨hn, -, hcaret, rfl⟩⟩ := eq_of_read? h
  · have hletters := spellSegment_letters hread.written hb.escapes hb.apart after
    rcases hc with rfl | rfl
    · rw [spellSegment_open (by simp), spellSegment_cons (by decide) (by decide) (by decide), hletters, hn]
      rfl
    · rw [Rule.spellSegment, hletters, hn]
      rfl
  · rw [spellSegment_open hcaret, spellSegment_letters hread.written hb.escapes hb.apart, hn]
    rfl

end Spelling

section Classes

theorem readClass?_bracket (hread : AreRead b.letters) (hb : b.IsKept)
    (hmark : b.negated = false → ∀ l ∈ b.letters.head?, l.char ≠ '!') (u : Text) :
    readClass? ((if b.negated then ['!'] else []) ++ (b.letters.map Letter.char ++ ']' :: u)) =
      some (b.single, u) := by
  obtain ⟨l, ls, hls⟩ := List.exists_cons_of_ne_nil hread.some
  have hclosed : ']' ∉ ls.map Letter.char := by
    intro hm
    obtain ⟨⟨escaped, c⟩, hmem, rfl⟩ := List.mem_map.1 hm
    cases escaped with
    | true =>
      have hspecial := hb.escapes ⟨true, ']'⟩ (by simp [hls, hmem]) rfl
      cases hspecial
    | false => exact hread.closed (by simpa [hls] using hmem)
  have hcut := Text.cutAt?_append (b := u) hclosed
  cases hn : b.negated with
  | true => simp [hls, readClass?, hcut, Bracket.single, hn]
  | false =>
    have hl : l.char ≠ '!' := hmark hn l (by simp [hls])
    simp [hls, readClass?, hcut, Bracket.single, hn, hl]

theorem Bracket.HasPlainDashes.tail (h : HasPlainDashes (l :: ls)) : HasPlainDashes ls := by
  match ls, h with
  | [], _ => trivial
  | [_], _ => trivial
  | _ :: _ :: _, h => exact h.2

/-- The class that the characters of some letters are read as takes what is among the letters. -/
theorem any_contains_members (hdashes : HasPlainDashes ls) :
    (members (ls.map Letter.char)).any (·.contains c) = isAmong c ls := by
  fun_induction isAmong c ls with
  | case1 first last rest ih =>
    rw [← ih hdashes.tail.tail.tail]
    rfl
  | case2 l rest hrange ih =>
    have hone : members ((l :: rest).map Letter.char) = .one l.char :: members (rest.map Letter.char) := by
      rw [List.map_cons, members]
      -- characters around a dash are those of letters around one, which would make a range
      intro d more hmore
      obtain ⟨m, ms, rfl, hm, hms⟩ := List.map_eq_cons_iff.1 hmore
      obtain ⟨k, ks, rfl, hk, -⟩ := List.map_eq_cons_iff.1 hms
      obtain ⟨hl, hm', hk'⟩ := hdashes.1 hm
      obtain ⟨_, first⟩ := l
      obtain ⟨_, dash⟩ := m
      obtain ⟨_, last⟩ := k
      simp only at hl hm hm' hk'
      subst hl hm hm' hk'
      exact hrange first last ks rfl rfl
    rw [hone, ← ih hdashes.tail]
    rfl
  | case3 => rfl

theorem takes_single_iff (hb : b.IsKept) :
    b.single.takes Rule.dots true c = true ↔ c ≠ '/' ∧ b.admits c = true := by
  have hmembers := any_contains_members (c := c) hb.dashes
  unfold Bracket.single Bracket.admits
  cases hn : b.negated with
  | true => simp [Single.takes, hmembers, wild_unguarded]
  | false => simp [Single.takes, hmembers, wild_unguarded]

end Classes

end Folio.Segment
