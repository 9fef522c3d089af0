import Folio.Document.Block
import Folio.Proofs.Markup.Reading

/-!
# Content line by line

Content is escaped in one pass. That comes to escaping each of its lines and putting the newlines back
between them, since no closing mark goes over a newline, and it leaves the end of the content as it was.
-/
namespace Folio

namespace Markup.CharacterData

theorem escape_intercalate (lines : List Text) :
    escape (['\n'].intercalate lines) = ['\n'].intercalate (lines.map escape) := by
  induction lines with
  | nil => rfl
  | cons line lines ih =>
    by_cases hne : lines = []
    · simp [hne]
    · have hmap : lines.map escape ≠ [] := by simpa using hne
      rw [List.map_cons, Text.intercalate_cons hne, Text.intercalate_cons hmap, escape_append_newline, ih]

end Markup.CharacterData

namespace Document
open Markup

/-- Escaped lines with newlines between them are the escaped content. It is empty or ends with a newline
just when the content itself does, and so the newline that a section adds can be told from the content. -/
theorem escape_lines (t : Text) :
    let escaped := ['\n'].intercalate ((t.splitOn '\n').map CharacterData.escape)
    escaped = CharacterData.escape t ∧
      (CharacterData.escape t = [] ↔ t = []) ∧
      ((CharacterData.escape t).getLast? = some '\n' ↔ t.getLast? = some '\n') ∧
      contentSection t = "    ".toList ++ CharacterData.opening ++ '\n' :: escaped ++
        (if t = [] ∨ t.getLast? = some '\n' then [] else ['\n']) ++ CharacterData.closing ++ ['\n'] := by
  intro escaped
  have hsplit : ['\n'].intercalate (t.splitOn '\n') = t := List.intercalate_splitOn '\n'
  have hescaped : escaped = CharacterData.escape t :=
    calc escaped = CharacterData.escape (['\n'].intercalate (t.splitOn '\n')) :=
          (CharacterData.escape_intercalate _).symm
      _ = CharacterData.escape t := by rw [hsplit]
  refine ⟨hescaped, CharacterData.escape_eq_nil_iff, by rw [CharacterData.getLast?_escape], ?_⟩
  unfold contentSection
  simp only [hescaped, List.isEmpty_iff, Bool.or_eq_true, decide_eq_true_eq, CharacterData.getLast?_escape,
    CharacterData.escape_eq_nil_iff]

/-- Brackets at the end of one line and an angle at the beginning of the next make no closing mark. -/
example : CharacterData.escape "]]\n>]]>]]".toList = "]]\n>]]]]><![CDATA[>]]".toList := by decide

end Document
end Folio
