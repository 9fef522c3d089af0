import Folio.Glob.Token

/-!
# Reading glob patterns

A pattern is refused for three stars in a row, for two stars that are not a whole path component, and
for a bracket without a class. Faults carry the position where reading stopped.
-/
namespace Folio.Glob

inductive Fault where
  | threeStars
  | partialGlobstar
  | openClass
  deriving DecidableEq

structure SyntaxFault where
  position : Nat
  fault : Fault
  deriving DecidableEq

def Fault.message : Fault → Text
  | .threeStars => "wildcards are either regular \x60*\x60 or recursive \x60**\x60".toList
  | .partialGlobstar => "recursive wildcards must form a single path component".toList
  | .openClass => "invalid range pattern".toList

def SyntaxFault.message (e : SyntaxFault) : Text :=
  "Pattern syntax error near position ".toList ++ Text.ofNat e.position ++ ": ".toList ++
    e.fault.message

/-- The members of a class: `a-z` is a range wherever three characters are left for it. -/
def members : Text → List Member
  | a :: '-' :: b :: rest => .range a b :: members rest
  | a :: rest => .one a :: members rest
  | [] => []

/-- The class behind an opening bracket and the text after its closing one. The first member may be a
closing bracket itself. -/
def readClass? : Text → Option (Single × Text)
  | '!' :: c :: rest =>
    (Text.cutAt? ']' rest).map fun (inner, after) => (.outside (members (c :: inner)), after)
  | '!' :: [] => none
  | c :: rest =>
    (Text.cutAt? ']' rest).map fun (inner, after) => (.inside (members (c :: inner)), after)
  | [] => none

theorem length_lt_of_readClass? {t after : Text} {s : Single} (h : readClass? t = some (s, after)) :
    after.length < t.length := by
  unfold readClass? at h
  split at h
  · obtain ⟨⟨x, y⟩, hx, he⟩ := Option.map_eq_some_iff.1 h
    cases he
    simp only [Text.eq_append_of_cutAt? hx, List.length_cons, List.length_append]
    omega
  · simp at h
  · obtain ⟨⟨x, y⟩, hx, he⟩ := Option.map_eq_some_iff.1 h
    cases he
    simp only [Text.eq_append_of_cutAt? hx, List.length_cons, List.length_append]
    omega
  · simp at h

/-- The tokens of the rest of a pattern that starts at `position`; `fresh` tells that a path component
begins there. -/
def parseFrom (position : Nat) (fresh : Bool) : Text → Except SyntaxFault (List Token)
  | [] => .ok []
  | '*' :: '*' :: '*' :: _ => .error ⟨position + 2, .threeStars⟩
  | '*' :: '*' :: '/' :: rest =>
    if fresh then (.globstar :: ·) <$> parseFrom (position + 3) true rest
    else .error ⟨position - 1, .partialGlobstar⟩
  | ['*', '*'] => if fresh then .ok [.globstar] else .error ⟨position - 1, .partialGlobstar⟩
  | '*' :: '*' :: _ =>
    .error ⟨if fresh then position + 2 else position - 1, .partialGlobstar⟩
  | '*' :: rest => (.star :: ·) <$> parseFrom (position + 1) false rest
  | '?' :: rest => (.single .anything :: ·) <$> parseFrom (position + 1) false rest
  | '[' :: rest =>
    match h : readClass? rest with
    | some (s, after) =>
      have := length_lt_of_readClass? h
      (.single s :: ·) <$> parseFrom (position + 1 + (rest.length - after.length)) false after
    | none => .error ⟨position, .openClass⟩
  | c :: rest => (.single (.literal c) :: ·) <$> parseFrom (position + 1) (c = '/') rest
termination_by t => t.length

def parse (t : Text) : Except SyntaxFault (List Token) := parseFrom 0 true t

end Folio.Glob
