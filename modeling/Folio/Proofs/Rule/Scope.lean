import Folio.Rule.Line
import Folio.Proofs.Rule.Parts
import Folio.Proofs.Rule.Segments

/-!
# The scope of a rule

A rule from the exclusion file of a directory applies to nothing outside of that directory, whatever its
line says. The path of the directory is asked to mean nothing but itself in a pattern.
-/
namespace Folio.Rule
open Glob Segment

def IsLiteral (t : Text) : Prop := ∀ c ∈ t, c ≠ '*' ∧ c ≠ '?' ∧ c ≠ '[' ∧ c ≠ '\\'

variable {names : List Text} {dir line text path x y : Text} {isDirectory : Bool} {rule : Rule}

theorem spellSegment_literal {n : Text} (hn : IsLiteral n) : spellSegment n = n := by
  induction n with
  | nil => rfl
  | cons c n ih =>
    obtain ⟨hstar, -, hopen, hback⟩ := hn c (by simp)
    rw [spellSegment_cons hstar hopen hback, ih fun d hd => hn d (by simp [hd])]

theorem spelling_literal {n : Text} (hn : IsLiteral n) : spelling n = n := by
  unfold spelling
  split
  · rfl
  · exact spellSegment_literal hn

theorem spell_append (hd : IsLiteral dir) (y : Text) : spell (dir ++ '/' :: y) = dir ++ '/' :: spell y := by
  have hpieces : ∀ n ∈ dir.splitOn '/', spelling n = n := fun n hn =>
    spelling_literal fun c hc => hd c (Text.subset_of_mem_splitOn hn hc)
  have hmap : (dir.splitOn '/').map spelling = dir.splitOn '/' :=
    (List.map_congr_left hpieces).trans (List.map_id' _)
  have hspell : ∀ t, spell t = ['/'].intercalate ((t.splitOn '/').map spelling) := fun _ => rfl
  rw [hspell, hspell, List.splitOn_append_cons_self, List.map_append, hmap,
    Text.intercalate_append (List.splitOn_ne_nil '/' dir) (by simp), List.intercalate_splitOn]

theorem exists_parts_pattern (negated : Bool) (hm : dir.head? ≠ some '!') (hs : dir.head? ≠ some '/')
    (hne : dir ≠ []) (hx : x ≠ []) :
    ∃ y, (parts ((if negated then ['!'] else []) ++ (dir ++ '/' :: x))).pattern = dir ++ '/' :: y := by
  have hhead : (dir ++ '/' :: x).head? = dir.head? := by
    obtain ⟨c, rest, rfl⟩ := List.exists_cons_of_ne_nil hne
    rfl
  rw [parts_mark negated (hhead ▸ hm) (hhead ▸ hs)]
  cases hb : Text.beforeLast? '/' (dir ++ '/' :: x) with
  | none => exact ⟨x, rfl⟩
  | some front =>
    rw [Text.beforeLast?_eq_some_iff] at hb
    refine ⟨x.dropLast, ?_⟩
    have hdrop := congrArg List.dropLast hb
    rw [List.dropLast_append_of_ne_nil (by simp), List.dropLast_cons_of_ne_nil hx,
      List.dropLast_concat] at hdrop
    exact hdrop.symm

theorem exists_tokens (hd : IsLiteral dir) (hp : (parts text).pattern = dir ++ '/' :: y)
    (hc : compile text = .ok rule) :
    ∃ ts, rule.tokens = (dir ++ ['/']).map (fun c => .single (.literal c)) ++ ts := by
  have hspell : spell (parts text).pattern = (dir ++ ['/']) ++ spell y := by
    rw [hp, spell_append hd]
    simp
  have hplain : ∀ c ∈ dir ++ ['/'], IsPlain c := by
    intro c hc
    rcases List.mem_append.1 hc with hc | hc
    · exact ⟨(hd c hc).1, (hd c hc).2.1, (hd c hc).2.2.1⟩
    · rw [List.mem_singleton.1 hc]
      simp [IsPlain]
  unfold compile at hc
  simp only [hspell] at hc
  split at hc
  · cases hc
  · split at hc
    next tokens hparse =>
      cases hc
      obtain ⟨-, -, ts, -, hts⟩ := parseFrom_append hplain hparse
      exact ⟨ts, hts⟩
    next => cases hc

/-- A rule whose pattern goes on behind a literal text applies below this text only. -/
theorem mem_ancestors_of_applies (hd : IsLiteral dir) (hne : dir ≠ [])
    (hp : (parts text).pattern = dir ++ '/' :: y) (hc : compile text = .ok rule)
    (ha : rule.applies path isDirectory = true) : dir ∈ ancestors path := by
  obtain ⟨ts, hts⟩ := exists_tokens hd hp hc
  have hbegins : ∀ q, accepts dots rule.tokens q = true → ∃ r, q = dir ++ '/' :: r := by
    intro q hq
    rw [hts, accepts_literals_iff dots_unguarded] at hq
    obtain ⟨r, rfl, -⟩ := hq
    exact ⟨r, by simp⟩
  rw [mem_ancestors]
  refine ⟨hne, ?_⟩
  simp only [applies, Bool.or_eq_true, Bool.and_eq_true, List.any_eq_true] at ha
  rcases ha with ⟨-, ha⟩ | ⟨q, hq, ha⟩
  · exact hbegins path ha
  · obtain ⟨-, r, rfl⟩ := mem_ancestors.1 hq
    obtain ⟨s, rfl⟩ := hbegins q ha
    exact ⟨s ++ '/' :: r, by simp⟩

/-- The rule of any line in a file of a literal directory applies below the directory only. -/
theorem mem_ancestors_of_ruleOfLine? (hroot : dir ≠ Path.rootName) (hd : IsLiteral dir) (hne : dir ≠ [])
    (hm : dir.head? ≠ some '!') (hs : dir.head? ≠ some '/') (ht : ruleOfLine? dir line = some text)
    (hc : compile text = .ok rule) (ha : rule.applies path isDirectory = true) :
    dir ∈ ancestors path := by
  obtain ⟨l, hl, rfl⟩ := Option.map_eq_some_iff.1 ht
  have hx : (if l.tied then [] else Line.anyDepth) ++ l.pattern ≠ [] := by
    simp [Line.read?_pattern_ne_nil hl]
  have htext : l.ruleText dir = (if l.negated then ['!'] else []) ++
      (dir ++ '/' :: ((if l.tied then [] else Line.anyDepth) ++ l.pattern)) := by
    simp [Line.ruleText, hroot]
  obtain ⟨y, hy⟩ := exists_parts_pattern l.negated hm hs hne hx
  rw [← htext] at hy
  exact mem_ancestors_of_applies hd hne hy hc ha

theorem mem_ancestors_of_plainNames (hslash : ∀ n ∈ names, '/' ∉ n)
    (hplain : ∀ n ∈ names, IsPlainName n) (hne : names ≠ [])
    (hroot : ['/'].intercalate names ≠ Path.rootName)
    (ht : ruleOfLine? (['/'].intercalate names) line = some text) (hc : compile text = .ok rule)
    (ha : rule.applies path isDirectory = true) : ['/'].intercalate names ∈ ancestors path := by
  have hliteral : IsLiteral (['/'].intercalate names) := by
    intro c hc
    rcases Text.mem_intercalate hc with rfl | ⟨n, hn, hc⟩
    · decide
    · obtain ⟨hstar, hmark, hopen, -, hback, -⟩ := (hplain n hn).2 c hc
      exact ⟨hstar, hmark, hopen, hback⟩
  obtain ⟨n, rest, rfl⟩ := List.exists_cons_of_ne_nil hne
  have hn := hplain n (by simp)
  have hhead : (['/'].intercalate (n :: rest)).head? = n.head? := Text.head?_intercalate_cons hn.1
  have hdir : ['/'].intercalate (n :: rest) ≠ [] := fun he =>
    hne ((Text.intercalate_eq_nil_iff fun hm => (hplain [] hm).1 rfl).1 he)
  refine mem_ancestors_of_ruleOfLine? hroot hliteral hdir ?_ ?_ ht hc ha
  · rw [hhead]
    intro h
    exact (hn.2 '!' (List.mem_of_mem_head? h)).2.2.2.2.2 rfl
  · rw [hhead]
    intro h
    exact hslash n (by simp) (List.mem_of_mem_head? h)

end Folio.Rule
