import Folio.Proofs.Path.Inside
import Folio.Proofs.Walk.Listing

/-!
# Walks in copies of a tree

Where no link is met it does not matter whether links are followed. So a walk in a tree without links lists
places of the tree, each behind the place where the tree stands on the disk.
-/
namespace Folio

section
variable {shows : Bytes → Bool} {onLink onLink' : List Ancestor → Path → Visit} {way way' : List Ancestor}
  {place : Place} {path : Path}

theorem visitEntries_congr {es : List (Bytes × Node)}
    (h : ∀ e ∈ es, e.2.visit shows onLink way (place ++ [e.1]) (path.join e.1) =
      e.2.visit shows onLink' way' (place ++ [e.1]) (path.join e.1)) :
    visitEntries shows onLink way place path es = visitEntries shows onLink' way' place path es := by
  induction es with
  | nil => rfl
  | cons e es ih =>
    obtain ⟨name, node⟩ := e
    have hrest := ih fun e he => h e (List.mem_cons_of_mem _ he)
    have hfirst := h (name, node) List.mem_cons_self
    rw [visitEntries, visitEntries, hrest, hfirst]

/-- Without links nothing depends on what a link becomes. -/
theorem Node.LinkFree.visit_eq {n : Node} (hl : n.LinkFree) (hs : n.Sound) :
    n.visit shows onLink way place path = n.visit shows onLink' way' place path := by
  induction n using Node.inductionOn generalizing way way' place path with
  | file content modified => rfl
  | link target => exact absurd rfl (hl [] target)
  | directory es ih =>
    rw [visit, visit]
    congr 1
    exact visitEntries_congr fun e he => ih e he (hl.of_mem hs he) (hs.of_mem he)

end

namespace Node
open Disk
variable {n : Node} {loc here : Place} {prune prune' : Place → Bool}

section
variable (hp : ∀ place, (∀ m ∈ place, IsFileName m) → prune (loc ++ place) = prune' place)
include hp

theorem listingInside_append {es : List (Bytes × Node)} (hh : ∀ m ∈ here, IsFileName m)
    (hn : ∀ e ∈ es, IsFileName e.1)
    (ih : ∀ e ∈ es, e.2.listing prune (loc ++ (here ++ [e.1])) =
      (e.2.listing prune' (here ++ [e.1])).map fun found => (loc ++ found.1, found.2)) :
    listingInside prune (loc ++ here) es =
      (listingInside prune' here es).map fun found => (loc ++ found.1, found.2) := by
  induction es with
  | nil => rfl
  | cons e es ihes =>
    obtain ⟨name, node⟩ := e
    have hrest := ihes (fun e he => hn e (by simp [he])) fun e he => ih e (by simp [he])
    have hfirst := ih (name, node) List.mem_cons_self
    have hname : IsFileName name := hn (name, node) List.mem_cons_self
    have hprune := hp (here ++ [name]) fun m hm =>
      (List.mem_append.1 hm).elim (hh m) fun hm => List.mem_singleton.1 hm ▸ hname
    rw [listingInside, listingInside, List.append_assoc, hprune, hfirst, hrest, List.map_append]
    split <;> rfl

theorem listing_append (hs : n.Sound) (hh : ∀ m ∈ here, IsFileName m) :
    n.listing prune (loc ++ here) = (n.listing prune' here).map fun found => (loc ++ found.1, found.2) := by
  induction n using inductionOn generalizing here with
  | file content modified => rfl
  | link target => rfl
  | directory es ih =>
    have hes := hs [] es rfl
    rw [listing, listing, List.map_cons]
    congr 1
    apply listingInside_append hp hh hes.2
    intro e he
    apply ih e he (hs.of_mem he)
    intro m hm
    rcases List.mem_append.1 hm with hm | hm
    · exact hh m hm
    · exact List.mem_singleton.1 hm ▸ hes.2 e he

end
end Node

namespace Disk
variable {disk : Disk} {loc here : Place} {tree : Node} {es : List (Bytes × Node)}

/-- A walk in a tree without links, said without the place where the tree stands. -/
theorem Hosts.walk_eq (h : disk.Hosts loc tree) (hes : tree.at? here = some (.directory es))
    (followLinks : Bool) {prune : Path → Bool} {prune' : Place → Bool}
    (hp : ∀ place, (∀ m ∈ place, IsFileName m) → prune (pathOf (loc ++ place)) = prune' place) :
    disk.walk followLinks prune (pathOf (loc ++ here)) =
      ((Node.directory es).listing prune' here).map fun found => foundAt (loc ++ found.1, found.2) := by
  have hat : disk.top.at? (loc ++ here) = some (.directory es) := by rw [h.at?_append, hes]
  have hl : (Node.directory es).LinkFree := h.linkFree.at hes
  have hs : (Node.directory es).Sound := disk.sound.at hat
  have hfind : disk.find false (pathOf (loc ++ here)) = .ok (loc ++ here, .directory es) :=
    find_pathOf hat (fun _ => rfl) (by simp)
  have hsame : disk.walk followLinks prune (pathOf (loc ++ here)) =
      disk.walk false prune (pathOf (loc ++ here)) := by
    rw [walk, walk, visit, visit, hfind]
    cases followLinks with
    | false => rfl
    | true => exact congrArg (Visit.flatten prune) (hl.visit_eq hs)
  rw [hsame, walk_pathOf hat, Node.listing_append hp hs (h.isFileName_of_at? hes), List.map_map]
  rfl

end Disk
end Folio
