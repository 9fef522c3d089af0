import Folio.Text.CaseTable

/-!
# Lower case

Lower-casing goes character by character through the tables, with two rules of its own: the capital
dotted I becomes two characters, and a capital sigma at the end of a word becomes the final sigma.
-/
namespace Folio.Text

/-- The simple lower case of a character; a character without one stands for itself. -/
def lowerChar (c : Char) : Char :=
  match caseRuns.find? (·.covers c.toNat) with
  | some run => Char.ofNat (c.toNat + run.offset).toNat
  | none => c

def inRanges (ranges : List (Nat × Nat)) (c : Char) : Bool :=
  ranges.any fun (first, last) => first ≤ c.toNat && c.toNat ≤ last

/-- Whether the first character that counts is a cased one. -/
def nextIsCased (t : Text) : Bool :=
  match t.dropWhile (inRanges caseIgnorableRanges) with
  | c :: _ => inRanges casedRanges c
  | [] => false

/-- The lower case of the text `t` that stands after the reversed text `before`. -/
def lowerAfter (before : Text) : Text → Text
  | [] => []
  | c :: rest =>
    let here :=
      if c = '\u03A3' then
        if nextIsCased before && !nextIsCased rest then ['\u03C2'] else ['\u03C3']
      else if c = '\u0130' then ['i', '\u0307']
      else [lowerChar c]
    here ++ lowerAfter (c :: before) rest

def lowercase (t : Text) : Text := lowerAfter [] t

end Folio.Text
