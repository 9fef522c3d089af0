import Folio.Index
import Mathlib.Data.List.Induction

/-!
# Indexes of lists

An index that is made of a list holds under each key the last value that the list has for it.
-/
namespace Folio

namespace Index
variable {α : Type} {key : Text} {v : α} {entries more : List (Text × α)}

theorem find?_ofList : find? key (ofList entries) = entries.reverse.lookup key := by
  induction entries using List.reverseRecOn with
  | nil => rfl
  | append_singleton entries e ih =>
    have hlast : ofList (entries ++ [e]) = (ofList entries).alter e.1 fun _ => e.2 := by
      rw [ofList, List.foldl_append]
      rfl
    have hcons : List.lookup key (e :: entries.reverse) =
        if key = e.1 then some e.2 else entries.reverse.lookup key := find?_cons
    rw [hlast, find?_alter (ascending_ofList entries), ih, List.reverse_append, List.reverse_singleton,
      List.singleton_append, hcons]

theorem find?_ofList_append : find? key (ofList (entries ++ more)) =
    (find? key (ofList more)).or (find? key (ofList entries)) := by
  rw [find?_ofList, find?_ofList, find?_ofList, List.reverse_append, List.lookup_append]

theorem find?_ofList_eq_none (h : ∀ entry ∈ entries, entry.1 ≠ key) : find? key (ofList entries) = none := by
  rw [find?_ofList, List.lookup_eq_none_iff]
  intro entry he
  simpa using Ne.symm (h entry (List.mem_reverse.1 he))

theorem find?_ofList_eq_some (h : (key, v) ∈ entries) (hv : ∀ w, (key, w) ∈ entries → w = v) :
    find? key (ofList entries) = some v := by
  rw [find?_ofList]
  cases hl : entries.reverse.lookup key with
  | none =>
    rw [List.lookup_eq_none_iff] at hl
    simpa using hl _ (List.mem_reverse.2 h)
  | some w =>
    obtain ⟨front, back, hback, -⟩ := List.lookup_eq_some_iff.1 hl
    have hw : (key, w) ∈ entries := by
      rw [← List.mem_reverse, hback]
      simp
    rw [hv w hw]

/-- The entries of such an index are those of the list behind which their key does not stand again. -/
theorem mem_ofList_iff : (key, v) ∈ ofList entries ↔
    ∃ front back, entries = front ++ (key, v) :: back ∧ ∀ e ∈ back, e.1 ≠ key := by
  rw [mem_iff_find? (ascending_ofList entries), find?_ofList, List.lookup_eq_some_iff]
  constructor
  · rintro ⟨back, front, hsplit, hback⟩
    refine ⟨front.reverse, back.reverse, ?_, fun e he => ?_⟩
    · rw [← List.reverse_reverse entries, hsplit]
      simp
    · exact (ne_of_beq_false (by simpa using hback e (List.mem_reverse.1 he))).symm
  · rintro ⟨front, back, rfl, hback⟩
    refine ⟨back.reverse, front.reverse, by simp, fun e he => ?_⟩
    simpa using Ne.symm (hback e (List.mem_reverse.1 he))

end Index
end Folio
