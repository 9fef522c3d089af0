import Folio.Text.Basic

/-!
# Character data sections

Content stands in the document as it is, between `<![CDATA[` and `]]>`. Where the content itself holds
the closing mark, one section ends after its brackets and the next one begins before its angle. Reading
joins adjacent sections again.
-/
namespace Folio.Markup.CharacterData

def opening : Text := "<![CDATA[".toList

def closing : Text := "]]>".toList

/-- The place where one section ends and the next begins. -/
def joint : Text := closing ++ opening

/-- Content that holds no closing mark of its own. -/
def escape : Text → Text
  | [] => []
  | ']' :: ']' :: '>' :: rest => ']' :: ']' :: (joint ++ '>' :: escape rest)
  | c :: rest => c :: escape rest

def unescape (t : Text) : Text :=
  match _h : behind? joint t with
  | some rest => unescape rest
  | none =>
    match t with
    | [] => []
    | c :: rest => c :: unescape rest
termination_by t.length
decreasing_by
  · have hj : joint.length = 12 := rfl
    rw [behind?_eq_some_iff.1 _h, List.length_append]
    omega
  · simp

end Folio.Markup.CharacterData
