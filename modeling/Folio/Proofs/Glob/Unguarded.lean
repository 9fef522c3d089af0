import Folio.Glob.Match

/-!
# Matching without guarded dots

Where dots are not guarded it makes no difference whether a name begins, and each token says by itself
what it takes from the front of a path: one character, any characters of one name, or whole names.
-/
namespace Folio.Glob
variable {dots : Dots} {fresh fresh' : Bool} {c : Char} {path : Text} {ts : List Token}

theorem takes_unguarded (hd : dots.guarded = false) (s : Single) :
    s.takes dots fresh c = s.takes dots fresh' c := by
  cases s <;> simp [Single.takes, Dots.wild, hd]

theorem matchFrom_unguarded (hd : dots.guarded = false) :
    matchFrom dots fresh path ts = matchFrom dots fresh' path ts := by
  induction ts generalizing fresh fresh' with
  | nil => cases path <;> rfl
  | cons t ts ih =>
    cases t with
    | single s =>
      cases path with
      | nil => rfl
      | cons c path => rw [matchFrom_cons_single, matchFrom_cons_single, takes_unguarded hd]
    | star =>
      cases path with
      | nil => exact ih
      | cons c path =>
        have hrest : matchFrom dots fresh (c :: path) ts = matchFrom dots fresh' (c :: path) ts := ih
        rw [matchFrom_cons_star, matchFrom_cons_star, hrest]
        simp [Dots.wild, hd]
    | globstar =>
      have hdeep : deepFrom dots fresh path ts = deepFrom dots fresh' path ts := by
        cases path with
        | nil => exact ih
        | cons c path => simp [deepFrom_cons, hd]
      have hrest : matchFrom dots fresh path ts = matchFrom dots fresh' path ts := ih
      rw [matchFrom_globstar, matchFrom_globstar, hrest, hdeep]

/-- What is left of a path behind a token is matched as a path of its own. -/
theorem matchFrom_eq_accepts (hd : dots.guarded = false) :
    matchFrom dots fresh path ts = accepts dots ts path := matchFrom_unguarded hd

theorem accepts_nil_iff : accepts dots [] path = true ↔ path = [] := by
  cases path <;> simp [accepts, matchFrom_nil_nil, matchFrom_cons_nil]

theorem accepts_single_iff (hd : dots.guarded = false) {s : Single} :
    accepts dots (.single s :: ts) path = true ↔
      ∃ c rest, path = c :: rest ∧ s.takes dots true c = true ∧ accepts dots ts rest = true := by
  cases path with
  | nil => simp [accepts, matchFrom_nil_single]
  | cons c path =>
    rw [accepts, matchFrom_cons_single, matchFrom_eq_accepts hd, Bool.and_eq_true]
    constructor
    · intro h
      exact ⟨c, path, rfl, h⟩
    · intro h
      obtain ⟨d, rest, he, h⟩ := h
      cases he
      exact h

theorem accepts_literals_iff (hd : dots.guarded = false) {u : Text} :
    accepts dots (u.map (fun c => .single (.literal c)) ++ ts) path = true ↔
      ∃ rest, path = u ++ rest ∧ accepts dots ts rest = true := by
  induction u generalizing path with
  | nil => simp
  | cons c u ih =>
    rw [List.map_cons, List.cons_append, accepts_single_iff hd]
    simp only [Single.takes, decide_eq_true_eq, ih]
    constructor
    · intro h
      obtain ⟨d, rest, rfl, rfl, below, rfl, h⟩ := h
      exact ⟨below, rfl, h⟩
    · intro h
      obtain ⟨rest, rfl, h⟩ := h
      exact ⟨c, u ++ rest, rfl, rfl, rest, rfl, h⟩

theorem accepts_star_iff (hd : dots.guarded = false) :
    accepts dots (.star :: ts) path = true ↔
      ∃ name rest, path = name ++ rest ∧ '/' ∉ name ∧ accepts dots ts rest = true := by
  induction path with
  | nil =>
    rw [accepts, matchFrom_nil_star, matchFrom_eq_accepts hd]
    constructor
    · intro h
      exact ⟨[], [], rfl, by simp, h⟩
    · intro h
      obtain ⟨name, rest, he, -, h⟩ := h
      obtain ⟨rfl, rfl⟩ := List.append_eq_nil_iff.1 he.symm
      exact h
  | cons c path ih =>
    rw [accepts, matchFrom_cons_star, matchFrom_eq_accepts hd, matchFrom_eq_accepts hd]
    simp only [Bool.or_eq_true, Bool.and_eq_true, ih, Dots.wild, hd]
    constructor
    · intro h
      rcases h with h | ⟨hc, name, rest, rfl, hn, h⟩
      · exact ⟨[], c :: path, rfl, by simp, h⟩
      · have hc' : c ≠ '/' := by simpa using hc
        exact ⟨c :: name, rest, rfl, by simp [hn, hc'.symm], h⟩
    · intro h
      obtain ⟨name, rest, he, hn, h⟩ := h
      cases name with
      | nil => exact .inl (he ▸ h)
      | cons d name =>
        obtain ⟨rfl, rfl⟩ := List.cons.inj he
        simp only [List.mem_cons, not_or] at hn
        exact .inr ⟨by simp [Ne.symm hn.1], name, rest, rfl, hn.2, h⟩

theorem deepFrom_iff (hd : dots.guarded = false) :
    deepFrom dots fresh path ts = true ↔
      accepts dots ts [] = true ∨ ∃ names rest, path = names ++ '/' :: rest ∧ accepts dots ts rest = true := by
  induction path generalizing fresh with
  | nil => simp [deepFrom_nil, matchFrom_eq_accepts hd]
  | cons c path ih =>
    rw [deepFrom_cons, matchFrom_eq_accepts hd]
    simp only [hd, Bool.false_and, Bool.not_false, Bool.true_and, Bool.or_eq_true, Bool.and_eq_true, ih,
      decide_eq_true_eq]
    constructor
    · intro h
      rcases h with (h | ⟨names, rest, rfl, h⟩) | ⟨rfl, h⟩
      · exact .inl h
      · exact .inr ⟨c :: names, rest, rfl, h⟩
      · exact .inr ⟨[], path, rfl, h⟩
    · intro h
      rcases h with h | ⟨names, rest, he, h⟩
      · exact .inl (.inl h)
      · cases names with
        | nil =>
          obtain ⟨rfl, rfl⟩ := List.cons.inj he
          exact .inr ⟨rfl, h⟩
        | cons d names =>
          obtain ⟨rfl, rfl⟩ := List.cons.inj he
          exact .inl (.inr ⟨names, rest, rfl, h⟩)

/-- A globstar takes nothing, whole names with the slash behind them, or all of the path. -/
theorem accepts_globstar_iff (hd : dots.guarded = false) :
    accepts dots (.globstar :: ts) path = true ↔
      accepts dots ts path = true ∨ accepts dots ts [] = true ∨
        ∃ names rest, path = names ++ '/' :: rest ∧ accepts dots ts rest = true := by
  have hdeep : deepFrom dots true path ts = true ↔ _ := deepFrom_iff hd
  rw [← hdeep, accepts, matchFrom_globstar, Bool.or_eq_true]
  rfl

end Folio.Glob
