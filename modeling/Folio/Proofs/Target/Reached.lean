import Folio.Proofs.Target.Way
import Folio.Proofs.Walk.Pruned

/-!
# What a search reaches

Everything that a search finds is reached from where it starts by joining names, one after another. So what
holds of the start and is kept by joining holds of all that is found.
-/
namespace Folio.Target
open Disk
open Folio.Path (slash)
variable {disk : Disk} {P : Path → Prop} {here : Path → Bool → List Path} {v : Visit} {vs : List Visit}
  {p q path : Path} {pieces : List Piece} {needDirectory d : Bool}

theorem mem_descendAll_iff : q ∈ descendAll here vs ↔ ∃ v ∈ vs, q ∈ descend here v := by
  induction vs with
  | nil => simp [descendAll]
  | cons v vs ih => simp [descendAll, ih]

theorem standsAt_visitLink (links : Nat) (way : List Ancestor) (path : Path) :
    (visitLink disk links way path).StandsAt path := by
  induction links generalizing way path with
  | zero => exact standsAt_ofLink way path
  | succ links ih =>
    rw [visitLink]
    split
    next place es hfind => exact Node.standsAt_visit (disk.sound.at (at?_of_find hfind)) ih
    next => exact standsAt_ofLink way path

theorem allBelow_below (path : Path) : Visit.AllBelow path (below disk path) := by
  rw [below]
  split
  next place n hfind =>
    have hn := disk.sound.at (at?_of_find hfind)
    cases n with
    | directory es =>
      exact Node.allBelow_visitEntries hn.isFileName fun e he q =>
        Node.standsAt_visit (hn.of_mem he) (standsAt_visitLink maxLinks)
    | _ => simp [Node.entries, visitEntries, Visit.AllBelow]
  next => simp [Visit.AllBelow]

theorem exists_eq_join_of_mem_children {found : Bytes × Path × Bool} (h : found ∈ children disk path) :
    ∃ name, found.2.1 = path.join name := by
  rw [children] at h
  split at h
  · obtain ⟨e, -, rfl⟩ := List.mem_map.1 h
    exact ⟨e.1, rfl⟩
  · cases h

section
variable (hjoin : ∀ p name, P p → P (p.join name))
include hjoin

theorem of_mem_descend (hhere : ∀ p d, P p → ∀ q ∈ here p d, P q) (hv : v.StandsAt p) (hp : P p)
    (h : q ∈ descend here v) : P q := by
  induction v using Visit.inductionOn generalizing p with
  | fault f => simp [descend] at h
  | entry path kind inside ih =>
    obtain ⟨rfl, -, hinside⟩ := hv
    rw [descend, List.mem_append] at h
    rcases h with h | h
    · exact hhere _ _ hp q h
    · obtain ⟨w, hw, h⟩ := mem_descendAll_iff.1 h
      obtain ⟨n, -, hstands⟩ := Visit.allBelow_iff.1 hinside w hw
      exact ih w hw hstands (hjoin _ n hp) h

/-- One piece takes joins of the path, or goes down from it, and the pieces behind go on from there. -/
theorem of_mem_search_cons {piece : Piece}
    (honward : ∀ p d, P p → ∀ q ∈ onward disk needDirectory pieces p d, P q)
    (hdeepen : ∀ p d, P p → ∀ q ∈ deepen disk needDirectory pieces p d, P q) (hp : P p)
    (h : q ∈ search disk needDirectory (piece :: pieces) p d) : P q := by
  rw [search_cons] at h
  split at h
  next name hname =>
    dsimp only at h
    split at h
    · exact honward _ _ (hjoin p _ hp) q h
    · cases h
  next =>
    split at h
    · cases h
    · split at h
      · obtain ⟨v, hv, h⟩ := mem_descendAll_iff.1 h
        obtain ⟨n, -, hstands⟩ := Visit.allBelow_iff.1 (allBelow_below p) v hv
        exact of_mem_descend hjoin hdeepen hstands (hjoin p n hp) h
      · rcases List.mem_append.1 h with h | h
        · obtain ⟨name, -, h⟩ := List.mem_flatMap.1 h
          exact honward _ _ (hjoin p name hp) q h
        · obtain ⟨found, hfound, h⟩ := List.mem_flatMap.1 h
          obtain ⟨name, hname⟩ := exists_eq_join_of_mem_children hfound
          split at h
          · rw [hname] at h
            exact honward _ _ (hjoin p name hp) q h
          · cases h

theorem of_mem_onward_deepen (pieces : List Piece) :
    (∀ p d, P p → ∀ q ∈ onward disk needDirectory pieces p d, P q) ∧
      ∀ p d, P p → ∀ q ∈ deepen disk needDirectory pieces p d, P q := by
  induction pieces with
  | nil =>
    refine ⟨fun p d hp q hq => ?_, fun p d hp q hq => ?_⟩
    · rw [onward] at hq
      simp only [List.isEmpty_nil, if_true] at hq
      split at hq
      · cases hq
      · exact List.mem_singleton.1 hq ▸ hp
    · rw [deepen] at hq
      split at hq
      · exact List.mem_singleton.1 hq ▸ hp
      · cases hq
  | cons piece rest ih =>
    refine ⟨fun p d hp q hq => ?_, fun p d hp q hq => ?_⟩
    · exact of_mem_search_cons hjoin ih.1 ih.2 hp hq
    · rw [deepen] at hq
      split at hq
      · exact ih.1 p d hp q hq
      · cases hq

/-- What joining keeps is handed down from the top to all that an absolute pattern finds. -/
theorem of_mem_expand {pattern : Text} (hpattern : pattern.head? = some '/')
    {paths : List Path} (h : expand disk pattern = .ok paths) (hq : q ∈ paths) (htop : P ⟨[slash]⟩) : P q := by
  unfold expand at h
  cases hparse : Glob.parse pattern with
  | error fault =>
    rw [hparse] at h
    cases h
  | ok tokens =>
    cases hpieces : (pieceTexts pattern).mapM Glob.parse with
    | error fault =>
      rw [hparse, hpieces] at h
      cases h
    | ok pieces =>
      rw [hparse, hpieces, if_pos hpattern] at h
      cases h
      cases hc : collapse pieces with
      | nil =>
        rw [hc] at hq
        simp [search] at hq
      | cons piece rest =>
        rw [hc] at hq
        obtain ⟨honward, hdeepen⟩ := of_mem_onward_deepen hjoin rest
        exact of_mem_search_cons hjoin honward hdeepen htop hq

end
end Folio.Target
