import Folio.Text.Basic

/-!
# Attribute values

An attribute value stands between double quotes, with the five characters that markup needs written as
entities.
-/
namespace Folio.Markup.Attribute

/-- How one character is written in a value. -/
def entity (c : Char) : Text :=
  match c with
  | '<' => "&lt;".toList
  | '>' => "&gt;".toList
  | '&' => "&amp;".toList
  | '\x27' => "&apos;".toList
  | '"' => "&quot;".toList
  | c => [c]

def escape (t : Text) : Text := t.flatMap entity

def render (name value : Text) : Text := name ++ '=' :: '"' :: escape value ++ ['"']

@[simp] theorem escape_nil : escape [] = [] := rfl

@[simp] theorem escape_cons (c : Char) (t : Text) : escape (c :: t) = entity c ++ escape t := rfl

@[simp] theorem escape_append (s t : Text) : escape (s ++ t) = escape s ++ escape t := by
  simp [escape]

theorem quote_notMem_entity (c : Char) : '"' ∉ entity c := by
  unfold entity
  split <;> simp_all [eq_comm]

/-- A value ends at the first double quote. -/
theorem quote_notMem_escape (t : Text) : '"' ∉ escape t := by
  simp [escape, quote_notMem_entity]

end Folio.Markup.Attribute
