import Folio.Proofs.Calendar.Timestamp
import Folio.Proofs.Document.Reading

/-!
# The time of the last change

The block of a file names the second in which the file was changed, and this second can be read back from
it. Nothing else in the block shows in that text, and nothing of the fraction behind the second.
-/
namespace Folio
open Calendar

/-- A fraction is less than a second. It counts toward the past, so the second before it is the whole one. -/
theorem Calendar.wholeSeconds_of_nanos_lt {t : Instant} (h : t.nanos < 1000000000) :
    wholeSeconds t = t.seconds := by
  rw [wholeSeconds]
  omega

namespace Document
variable {f : SourceFile}

def modified? (f : SourceFile) (content : Content) : Option Text :=
  match Draft.empty.add f (.ok content) with
  | .ok d => (block? d.blocks.flatten).map fun (record, _) => record.timestamp
  | .error _ => none

theorem modified?_eq (f : SourceFile) (content : Content) :
    modified? f content = timestamp? f.modified := by
  have hblock := @block?_block f content []
  rw [List.append_nil] at hblock
  by_cases ht : isDated f.modified = true
  · have hstamp : timestamp? f.modified = some (timestamp f.modified) := if_pos ht
    simp only [modified?, Draft.add, Draft.empty, hstamp, List.nil_append, List.flatten_singleton, hblock]
    rfl
  · have hstamp : timestamp? f.modified = none := if_neg ht
    simp only [modified?, Draft.add, hstamp]

/-- The block of a file names the whole second in which the file was changed, before 1970 as well as after
it, whatever the fraction behind the second. So two files that were changed in different seconds are told
apart, and in the years 0 to 9999 what the blocks tell sorts as the seconds do. -/
theorem seconds?_modified (ht : isDated f.modified = true) (hn : f.modified.nanos < 1000000000)
    (content : Content) :
    ∃ stamp, modified? f content = some stamp ∧ seconds? stamp = some f.modified.seconds ∧
      ∀ (g : SourceFile) (content' : Content) (stamp' : Text), g.modified.nanos < 1000000000 →
        modified? g content' = some stamp' →
          (stamp = stamp' ↔ f.modified.seconds = g.modified.seconds) ∧
            (0 ≤ (dateAt f.modified).year ∧ (dateAt f.modified).year ≤ 9999 →
              0 ≤ (dateAt g.modified).year ∧ (dateAt g.modified).year ≤ 9999 →
                (stamp < stamp' ↔ f.modified.seconds < g.modified.seconds)) := by
  have hstamp : modified? f content = some (timestamp f.modified) := (modified?_eq f content).trans (if_pos ht)
  refine ⟨timestamp f.modified, hstamp, ?_, ?_⟩
  · rw [seconds?_timestamp, wholeSeconds_of_nanos_lt hn]
  · intro g content' stamp' hn' hg
    have hstamp' : stamp' = timestamp g.modified := by
      rw [modified?_eq, timestamp?] at hg
      split at hg
      next => exact (Option.some.inj hg).symm
      next => cases hg
    rw [hstamp', ← wholeSeconds_of_nanos_lt hn, ← wholeSeconds_of_nanos_lt hn']
    exact ⟨timestamp_eq_timestamp_iff, timestamp_lt_timestamp_iff⟩

/-- One nanosecond lies between the last of February and the first of March 1900, which had no leap day. -/
theorem seconds?_modified_turn :
    let f : SourceFile := ⟨.ofText "/f".toList, "f".toList, "x".toList, ⟨-2203891201, 999999999⟩, 0⟩
    let g : SourceFile := ⟨.ofText "/g".toList, "g".toList, "x".toList, ⟨-2203891200, 0⟩, 9⟩
    let content : Content := ⟨"modified=\"0\"".toList, some .missing⟩
    let february : Text := "1900-02-28 23:59:59".toList
    let march : Text := "1900-03-01 00:00:00".toList
    isDated f.modified = true ∧ f.modified.nanos < 1000000000 ∧
      modified? f content = some february ∧ seconds? february = some (-2203891201) ∧
      modified? g content = some march ∧ february ≠ march ∧ february < march := by
  intro f g content february march
  have ht : isDated f.modified = true := by decide +kernel
  have hf : modified? f content = some february := (modified?_eq f content).trans (by decide +kernel)
  have hg : modified? g content = some march := (modified?_eq g content).trans (by decide +kernel)
  obtain ⟨stamp, hstamp, hsecond, hothers⟩ := seconds?_modified ht (by decide) content
  cases hf.symm.trans hstamp
  obtain ⟨hsame, hsorted⟩ := hothers g content march (by decide) hg
  refine ⟨ht, by decide, hf, hsecond, hg, mt hsame.1 (by decide), ?_⟩
  exact (hsorted (by decide +kernel) (by decide +kernel)).2 (by decide)

end Document
end Folio
