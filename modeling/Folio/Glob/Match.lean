import Folio.Glob.Token

/-!
# Matching glob patterns

`rows` tells for each suffix of a path, the longest first, whether the tokens match it, and works
token by token from the last one, so that a pattern with many stars costs no more than its length
times that of the path. The equations at the end say what this means for one token in front.
-/
namespace Folio.Glob

/-- Only the empty suffix is matched by no tokens. -/
def lastRow : Text → List Bool
  | [] => [true]
  | _ :: rest => false :: lastRow rest

/-- The row of a token for one character, from the row of the tokens behind it. -/
def singleRow (dots : Dots) (s : Single) : Bool → Text → List Bool → List Bool
  | _, [], _ => [false]
  | fresh, c :: rest, next =>
    (s.takes dots fresh c && next.tail.headD false) :: singleRow dots s (c = '/') rest next.tail

/-- The row of a star: it ends here, or takes a character and goes on. -/
def starRow (dots : Dots) : Bool → Text → List Bool → List Bool
  | _, [], next => [next.headD false]
  | fresh, c :: rest, next =>
    let more := starRow dots (c = '/') rest next.tail
    (next.headD false || (dots.wild fresh c && more.headD false)) :: more

/-- The row of a globstar that must not end before a slash or the end of the path. -/
def deepRow (dots : Dots) : Bool → Text → List Bool → List Bool
  | _, [], next => [next.headD false]
  | fresh, c :: rest, next =>
    let more := deepRow dots (c = '/') rest next.tail
    (!(dots.guarded && fresh && c = '.') &&
      (more.headD false || (c = '/' && next.tail.headD false))) :: more

def tokenRow (dots : Dots) (fresh : Bool) (path : Text) (next : List Bool) : Token → List Bool
  | .single s => singleRow dots s fresh path next
  | .star => starRow dots fresh path next
  | .globstar => List.zipWith (· || ·) next (deepRow dots fresh path next)

def rows (dots : Dots) (fresh : Bool) (path : Text) : List Token → List Bool
  | [] => lastRow path
  | t :: ts => tokenRow dots fresh path (rows dots fresh path ts) t

/-- Whether the tokens match all of `path`; `fresh` tells that a name begins with it. -/
def matchFrom (dots : Dots) (fresh : Bool) (path : Text) (tokens : List Token) : Bool :=
  (rows dots fresh path tokens).headD false

/-- Whether a globstar in front of the tokens matches `path` by taking a slash or all of it. -/
def deepFrom (dots : Dots) (fresh : Bool) (path : Text) (tokens : List Token) : Bool :=
  (deepRow dots fresh path (rows dots fresh path tokens)).headD false

def accepts (dots : Dots) (tokens : List Token) (path : Text) : Bool :=
  matchFrom dots true path tokens

section
variable {dots : Dots} {fresh : Bool} {c : Char} {path : Text} {ts : List Token}

theorem tail_rows : (rows dots fresh (c :: path) ts).tail = rows dots (c = '/') path ts := by
  induction ts with
  | nil => rfl
  | cons t ts ih =>
    cases t with
    | single s => simp [rows, tokenRow, singleRow, ih]
    | star => simp [rows, tokenRow, starRow, ih]
    | globstar =>
      simp only [rows, tokenRow, ← ih, deepRow]
      cases rows dots fresh (c :: path) ts <;> simp

theorem rows_ne_nil : rows dots fresh path ts ≠ [] := by
  induction ts with
  | nil => cases path <;> simp [rows, lastRow]
  | cons t ts ih =>
    cases t with
    | single s => cases path <;> simp [rows, tokenRow, singleRow]
    | star => cases path <;> simp [rows, tokenRow, starRow]
    | globstar =>
      obtain ⟨b, bs, h⟩ := List.exists_cons_of_ne_nil ih
      cases path <;> simp [rows, tokenRow, deepRow, h]

theorem matchFrom_nil_nil : matchFrom dots fresh [] [] = true := rfl

theorem matchFrom_cons_nil : matchFrom dots fresh (c :: path) [] = false := rfl

theorem matchFrom_nil_single {s : Single} : matchFrom dots fresh [] (.single s :: ts) = false := rfl

theorem matchFrom_cons_single {s : Single} :
    matchFrom dots fresh (c :: path) (.single s :: ts) =
      (s.takes dots fresh c && matchFrom dots (c = '/') path ts) := by
  simp [matchFrom, rows, tokenRow, singleRow, tail_rows]

theorem matchFrom_nil_star :
    matchFrom dots fresh [] (.star :: ts) = matchFrom dots fresh [] ts := rfl

theorem matchFrom_cons_star :
    matchFrom dots fresh (c :: path) (.star :: ts) =
      (matchFrom dots fresh (c :: path) ts ||
        (dots.wild fresh c && matchFrom dots (c = '/') path (.star :: ts))) := by
  simp [matchFrom, rows, tokenRow, starRow, tail_rows]

theorem deepFrom_nil : deepFrom dots fresh [] ts = matchFrom dots fresh [] ts := rfl

theorem deepFrom_cons :
    deepFrom dots fresh (c :: path) ts =
      (!(dots.guarded && fresh && c = '.') &&
        (deepFrom dots (c = '/') path ts || (c = '/' && matchFrom dots (c = '/') path ts))) := by
  simp [deepFrom, matchFrom, deepRow, tail_rows]

theorem matchFrom_globstar :
    matchFrom dots fresh path (.globstar :: ts) =
      (matchFrom dots fresh path ts || deepFrom dots fresh path ts) := by
  simp only [matchFrom, deepFrom, rows, tokenRow]
  have hn : rows dots fresh path ts ≠ [] := rows_ne_nil
  have hd : deepRow dots fresh path (rows dots fresh path ts) ≠ [] := by cases path <;> simp [deepRow]
  cases h : rows dots fresh path ts with
  | nil => exact absurd h hn
  | cons b bs =>
    cases h' : deepRow dots fresh path (b :: bs) with
    | nil => simp [h, h'] at hd
    | cons d ds => simp

end
end Folio.Glob
