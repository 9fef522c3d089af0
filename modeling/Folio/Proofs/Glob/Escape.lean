import Folio.Glob.Match
import Folio.Proofs.Glob.Reads

/-!
# Escaped texts

An escaped text is a pattern that takes this text and nothing else. A pattern behind an escaped text and a
slash can be read exactly when it can be read by itself.
-/
namespace Folio.Glob
variable {fresh : Bool} {c : Char} {t u : Text} {ts : List Token} {position position' : Nat}

theorem map_toOption {α β ε ε' : Type} {x : Except ε α} {y : Except ε' α} (f : α → β)
    (h : x.toOption = y.toOption) : (f <$> x).toOption = (f <$> y).toOption := by
  cases x <;> cases y <;> cases h <;> rfl

theorem parseFrom_class {s : Single} (h : readClass? t = some (s, u)) (position : Nat) :
    parseFrom position fresh ('[' :: t) =
      (.single s :: ·) <$> parseFrom (position + 1 + (t.length - u.length)) false u := by
  rw [parseFrom]
  split
  next s' u' h' =>
    cases h.symm.trans h'
    rfl
  next h' => cases h.symm.trans h'

theorem parseFrom_openClass (h : readClass? t = none) (position : Nat) :
    parseFrom position fresh ('[' :: t) = .error ⟨position, .openClass⟩ := by
  rw [parseFrom]
  split
  next h' => cases h.symm.trans h'
  next => rfl

/-- What a text reads as does not depend on where it stands; only the position of a fault does. -/
theorem toOption_parseFrom (position position' : Nat) (fresh : Bool) (t : Text) :
    (parseFrom position fresh t).toOption = (parseFrom position' fresh t).toOption := by
  fun_induction parseFrom position fresh t generalizing position' with
  | case1 => rw [parseFrom]
  | case2 =>
    rw [parseFrom]
    rfl
  | case3 position rest ih =>
    rw [parseFrom, if_pos rfl]
    exact map_toOption _ (ih _)
  | case4 position fresh rest hfresh =>
    rw [parseFrom, if_neg hfresh]
    rfl
  | case5 =>
    rw [parseFrom, if_pos rfl]
  | case6 position fresh hfresh =>
    rw [parseFrom, if_neg hfresh]
    rfl
  | case7 =>
    rw [parseFrom]
    · rfl
    all_goals assumption
  | case8 position fresh rest _ _ _ _ ih =>
    rw [parseFrom]
    · exact map_toOption _ (ih _)
    all_goals assumption
  | case9 position fresh rest ih =>
    rw [parseFrom]
    exact map_toOption _ (ih _)
  | case10 position fresh rest s after hclass _ ih =>
    rw [parseFrom_class hclass]
    exact map_toOption _ (ih _)
  | case11 position fresh rest hclass =>
    rw [parseFrom_openClass hclass]
    rfl
  | case12 position fresh c rest _ _ _ _ _ _ _ ih =>
    rw [parseFrom]
    · exact map_toOption _ (ih _)
    all_goals assumption

def IsMark (c : Char) : Prop := c = '?' ∨ c = '*' ∨ c = '[' ∨ c = ']'

instance (c : Char) : Decidable (IsMark c) := inferInstanceAs (Decidable (_ ∨ _))

def escapeToken (c : Char) : Token :=
  if IsMark c then .single (.inside [.one c]) else .single (.literal c)

theorem escape_cons (c : Char) (t : Text) :
    escape (c :: t) = (if IsMark c then ['[', c, ']'] else [c]) ++ escape t := rfl

theorem exists_parseFrom_mark (c : Char) (u : Text) (position : Nat) (fresh : Bool) :
    ∃ position' fresh', parseFrom position fresh ((if IsMark c then ['[', c, ']'] else [c]) ++ u) =
      (escapeToken c :: ·) <$> parseFrom position' fresh' u := by
  unfold escapeToken
  split
  next hc =>
    have hclass : readClass? (c :: ']' :: u) = some (.inside [.one c], u) := by
      have hmark : c ≠ '!' := by
        rintro rfl
        exact absurd hc (by decide)
      rw [readClass?]
      · rfl
      all_goals simp_all
    exact ⟨_, _, parseFrom_class hclass position⟩
  next hc =>
    have hplain : IsPlain c := by
      refine ⟨?_, ?_, ?_⟩ <;> rintro rfl <;> exact hc (by decide)
    exact ⟨_, _, parseFrom_plain hplain position⟩

/-- An escaped text adds its own tokens to a pattern that reads alike wherever it stands. -/
theorem toOption_parseFrom_escape {r : Option (List Token)}
    (hu : ∀ position fresh, (parseFrom position fresh u).toOption = r) (t : Text)
    (position : Nat) (fresh : Bool) :
    (parseFrom position fresh (escape t ++ u)).toOption = r.map (t.map escapeToken ++ ·) := by
  induction t generalizing position fresh with
  | nil => simpa [escape] using hu position fresh
  | cons c t ih =>
    obtain ⟨position', fresh', hc⟩ := exists_parseFrom_mark c (escape t ++ u) position fresh
    have hrest := ih position' fresh'
    rw [escape_cons, List.append_assoc, hc]
    cases hp : parseFrom position' fresh' (escape t ++ u) with
    | error fault =>
      rw [hp] at hrest
      cases r with
      | none => rfl
      | some tokens => cases hrest
    | ok tokens =>
      rw [hp] at hrest
      cases r with
      | none => cases hrest
      | some more =>
        cases hrest
        rfl

theorem parse_escape (t : Text) : parse (escape t) = .ok (t.map escapeToken) := by
  have hnil : ∀ position fresh, (parseFrom position fresh []).toOption = some [] := by
    intro position fresh
    rw [parseFrom]
    rfl
  have h := toOption_parseFrom_escape hnil t 0 true
  rw [List.append_nil, Option.map_some, List.append_nil] at h
  unfold parse
  cases hp : parseFrom 0 true (escape t) with
  | error fault =>
    rw [hp] at h
    cases h
  | ok tokens =>
    rw [hp] at h
    cases h
    rfl

/-- Behind an escaped text and a slash a pattern can be read exactly when it can be read by itself. -/
theorem isSome_parse_escape (t u : Text) :
    (parse (escape t ++ '/' :: u)).toOption.isSome = (parse u).toOption.isSome := by
  have hslash : ∀ position fresh, (parseFrom position fresh ('/' :: u)).toOption =
      (parse u).toOption.map (.single (.literal '/') :: ·) := by
    intro position fresh
    have hplain : IsPlain '/' := by unfold IsPlain; decide
    rw [parseFrom_plain hplain, parse, ← toOption_parseFrom (position + 1) 0]
    rw [decide_eq_true rfl]
    cases parseFrom (position + 1) true u <;> rfl
  rw [parse, toOption_parseFrom_escape hslash, Option.isSome_map, Option.isSome_map]

def IsExact (c : Char) (token : Token) : Prop :=
  ∃ s, token = .single s ∧ ∀ dots fresh d, s.takes dots fresh d = decide (d = c)

theorem isExact_literal (c : Char) : IsExact c (.single (.literal c)) := ⟨_, rfl, fun _ _ _ => rfl⟩

theorem isExact_escapeToken (c : Char) : IsExact c (escapeToken c) := by
  unfold escapeToken
  split
  next hc =>
    refine ⟨_, rfl, fun dots fresh d => ?_⟩
    by_cases hd : d = c
    · have hslash : c ≠ '/' := by
        rintro rfl
        exact absurd hc (by decide)
      have hdot : c ≠ '.' := by
        rintro rfl
        exact absurd hc (by decide)
      simp [Single.takes, Dots.wild, Member.contains, hd, hslash, hdot]
    · simp [Single.takes, Member.contains, hd]
  next => exact isExact_literal c

theorem matchFrom_map_exact {token : Char → Token} (h : ∀ c, IsExact c (token c)) (dots : Dots)
    (fresh : Bool) (path t : Text) : matchFrom dots fresh path (t.map token) = decide (path = t) := by
  induction t generalizing path fresh with
  | nil => cases path <;> simp [matchFrom_nil_nil, matchFrom_cons_nil]
  | cons c t ih =>
    obtain ⟨s, hs, htakes⟩ := h c
    rw [List.map_cons, hs]
    cases path with
    | nil => simp [matchFrom_nil_single]
    | cons d path =>
      rw [matchFrom_cons_single, htakes, ih]
      simp

theorem accepts_map_escapeToken (dots : Dots) (path t : Text) :
    accepts dots (t.map escapeToken) path = decide (path = t) :=
  matchFrom_map_exact isExact_escapeToken dots true path t

/-- Whether a text means something else as a pattern. -/
def isMarked (t : Text) : Bool := t.any fun c => decide (IsMark c)

theorem isMarked_iff : isMarked t = true ↔ ∃ c ∈ t, IsMark c := by simp [isMarked]

theorem literalText?_map_escapeToken (t : Text) :
    literalText? (t.map escapeToken) = if isMarked t then none else some t := by
  induction t with
  | nil => rfl
  | cons c t ih =>
    have hcons : isMarked (c :: t) = (decide (IsMark c) || isMarked t) := rfl
    rw [List.map_cons, hcons]
    by_cases hc : IsMark c
    · simp [escapeToken, hc, literalText?]
    · rw [escapeToken, if_neg hc, literalText?, ih]
      cases isMarked t <;> simp [hc]

theorem eq_of_literalText? (h : literalText? ts = some t) : ts = t.map fun c => .single (.literal c) := by
  induction ts generalizing t with
  | nil =>
    cases h
    rfl
  | cons token ts ih =>
    unfold literalText? at h
    split at h
    next he => cases he
    next he =>
      cases he
      obtain ⟨rest, hrest, rfl⟩ := Option.map_eq_some_iff.1 h
      rw [ih hrest]
      rfl
    · cases h

theorem accepts_of_literalText? (h : literalText? ts = some t) (dots : Dots) (path : Text) :
    accepts dots ts path = decide (path = t) := by
  rw [eq_of_literalText? h]
  exact matchFrom_map_exact isExact_literal dots true path t

theorem map_eq_ok_iff {α β ε : Type} {x : Except ε α} {f : α → β} {b : β} :
    f <$> x = .ok b ↔ ∃ a, x = .ok a ∧ f a = b := by
  cases x <;> simp [Functor.map, Except.map]

theorem map_eq_error_iff {α β ε : Type} {x : Except ε α} {f : α → β} {e : ε} :
    f <$> x = .error e ↔ x = .error e := by
  cases x <;> simp [Functor.map, Except.map]

theorem literalText?_class {s : Single} (h : readClass? t = some (s, u)) :
    literalText? (.single s :: ts) = none := by
  unfold readClass? at h
  split at h
  · obtain ⟨_, -, he⟩ := Option.map_eq_some_iff.1 h
    cases he
    rfl
  · cases h
  · obtain ⟨_, -, he⟩ := Option.map_eq_some_iff.1 h
    cases he
    rfl
  · cases h

theorem eq_of_parseFrom (h : parseFrom position fresh t = .ok ts)
    (hl : literalText? ts = some u) : u = t := by
  fun_induction parseFrom position fresh t generalizing ts u with
  | case1 =>
    cases h
    cases hl
    rfl
  | case2 | case4 | case6 | case7 | case11 => cases h
  | case5 =>
    cases h
    cases hl
  | case3 | case8 | case9 =>
    -- what begins with a wildcard is no plain text
    obtain ⟨_, -, rfl⟩ := map_eq_ok_iff.1 h
    cases hl
  | case10 position fresh rest s after hclass _ ih =>
    obtain ⟨tokens, -, rfl⟩ := map_eq_ok_iff.1 h
    rw [literalText?_class hclass] at hl
    cases hl
  | case12 position fresh c rest _ _ _ _ _ _ _ ih =>
    obtain ⟨tokens, hrest, rfl⟩ := map_eq_ok_iff.1 h
    obtain ⟨more, hmore, rfl⟩ := Option.map_eq_some_iff.1 hl
    rw [ih hrest hmore]

end Folio.Glob
