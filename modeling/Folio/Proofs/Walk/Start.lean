import Folio.Proofs.Walk.Listing
import Folio.Proofs.Walk.Pruned

/-!
# Walks from any start

The path where a walk begins may be spelled in any way and may be a link. A walk that does not follow links
then lists the tree that the path leads to, with the names of the tree joined to the path as it is spelled, so
that no two entries have the same path.
-/
namespace Folio

namespace Disk
variable {disk : Disk} {start : Path} {prune : Path → Bool} {n : Node}

theorem join_below (start : Path) (here : Place) (name : Bytes) :
    (start.below here).join name = start.below (here ++ [name]) := by
  rw [Path.below_append]
  rfl

theorem listing_eq_cons (n : Node) (prune : Place → Bool) :
    ∃ inside, n.listing prune [] = ([], n.kind) :: inside := by
  cases n <;> exact ⟨_, rfl⟩

theorem sound_entries (hs : n.Sound) : (Node.directory n.entries).Sound := by
  cases n with
  | directory es => exact hs
  | _ => exact Node.sound_directory List.Pairwise.nil (by simp [Node.entries]) (by simp [Node.entries])

/-- A walk that does not follow links fails at once, or it lists a tree by way of its start. The start itself
may count as something else than the tree, since a link there is entered. -/
theorem walk_eq_listing (disk : Disk) (prune : Path → Bool) (start : Path) :
    (∃ fault, disk.walk false prune start = [.error fault]) ∨
      ∃ (n : Node) (kind : Kind) (inside : List (Place × Kind)), n.Sound ∧
        n.listing (fun p => prune (start.below p)) [] = ([], n.kind) :: inside ∧
        disk.walk false prune start = (([], kind) :: inside).map (foundBy start.below) := by
  have hroute : ∀ here name, (∀ m ∈ here, IsFileName m) → IsFileName name →
      (start.below here).join name = start.below (here ++ [name]) :=
    fun here name _ _ => join_below start here name
  have hnone : ∀ m ∈ ([] : Place), IsFileName m := by simp
  rw [walk, visit]
  split
  · exact .inl ⟨_, rfl⟩
  next place n hfind =>
    have hn : n.Sound := disk.sound.at (at?_of_find hfind)
    rw [if_neg Bool.false_ne_true]
    split
    · split
      · exact .inl ⟨_, rfl⟩
      next place n hfound =>
        have hn : (Node.directory n.entries).Sound := sound_entries (disk.sound.at (at?_of_find hfound))
        refine .inr ⟨.directory n.entries, .link, _, hn, rfl, ?_⟩
        rw [Visit.flatten, List.map_cons]
        congr 1
        refine flattenInside_visitEntries hroute hnone (hn [] _ rfl).2 fun e he => ?_
        exact flatten_visit hroute (hn.of_mem he) (by simpa using (hn [] _ rfl).2 e he)
    · obtain ⟨inside, hinside⟩ := listing_eq_cons n fun p => prune (start.below p)
      refine .inr ⟨n, n.kind, inside, hn, hinside, ?_⟩
      rw [← hinside]
      exact flatten_visit hroute hn hnone

/-- What was found is not two entries with one path. -/
def Apart (a b : Found) : Prop := ∀ e e' : Entry, a = .ok e → b = .ok e' → e.path ≠ e'.path

theorem apart_foundBy_below {a b : Place × Kind} (ha : ∀ m ∈ a.1, IsFileName m)
    (hb : ∀ m ∈ b.1, IsFileName m) (h : ¬ b.1 <+: a.1) :
    Apart (foundBy start.below a) (foundBy start.below b) := by
  intro e e' he he' hpath
  cases he
  cases he'
  exact h (Path.below_injective ha hb hpath ▸ List.prefix_rfl)

/-- A walk that does not follow links comes to no path twice, wherever it begins. -/
theorem pairwise_walk (disk : Disk) (prune : Path → Bool) (start : Path) :
    (disk.walk false prune start).Pairwise Apart := by
  rcases disk.walk_eq_listing prune start with ⟨fault, hwalk⟩ | ⟨n, kind, inside, hn, hlisting, hwalk⟩
  · rw [hwalk]
    exact List.pairwise_singleton _ _
  · have hpairwise : (n.listing (fun p => prune (start.below p)) []).Pairwise fun a b => ¬ b.1 <+: a.1 :=
      Node.pairwise_listing hn
    have hnames : ∀ found ∈ inside, ∀ m ∈ found.1, IsFileName m := by
      intro found hfound m hm
      have hmem := hlisting ▸ List.mem_cons_of_mem ([], n.kind) hfound
      obtain ⟨below, node, rfl, hat, -⟩ := (Node.mem_listing_iff hn).1 hmem
      exact hn.isFileName_of_mem hat hm
    rw [hlisting, List.pairwise_cons] at hpairwise
    rw [hwalk, List.map_cons, List.pairwise_cons, List.pairwise_map]
    refine ⟨fun b hb => ?_, hpairwise.2.imp_of_mem fun ha hb => apart_foundBy_below (hnames _ ha) (hnames _ hb)⟩
    obtain ⟨found, hfound, rfl⟩ := List.mem_map.1 hb
    exact apart_foundBy_below (by simp) (hnames found hfound) (hpairwise.1 found hfound)

end Disk

end Folio
