import Folio.Proofs.Walk.Listing

/-!
# Trees in order

A directory lists its entries by their names. So a walk comes through a tree in one order: a directory before
all that is inside it, and what stands side by side by name.
-/
namespace Folio

/-- One place comes before another: it lies on the way there, or it has the smaller name where the ways to
the two part. -/
def Place.Before (a b : Place) : Prop :=
  (∃ name rest, b = a ++ name :: rest) ∨
    ∃ way m n front rest, a = way ++ m :: front ∧ b = way ++ n :: rest ∧ m < n

/-- Places come before one another in the order of the dictionary, with names for letters. -/
theorem Place.Before.lt {a b : Place} (h : a.Before b) : a < b := by
  rcases h with ⟨name, rest, rfl⟩ | ⟨way, m, n, front, rest, rfl, rfl, hlt⟩
  · have hlt : a ++ [] < a ++ name :: rest := List.append_left_lt (List.nil_lt_cons name rest)
    simpa using hlt
  · exact List.append_left_lt (List.cons_lt_cons_iff.2 (.inl hlt))

namespace Node

variable {n : Node} {es : List (Bytes × Node)} {prune : Place → Bool} {here : Place}

theorem pairwise_before_listingInside (hs : ∀ e ∈ es, e.2.Sound) (ho : Index.Ascending es)
    (ih : ∀ e ∈ es, (e.2.listing prune (here ++ [e.1])).Pairwise fun a b => a.1.Before b.1) :
    (listingInside prune here es).Pairwise fun a b => a.1.Before b.1 := by
  induction es with
  | nil => exact List.Pairwise.nil
  | cons e es ihes =>
    obtain ⟨hfirst, hrest⟩ := List.pairwise_cons.1 ho
    rw [listingInside, List.pairwise_append]
    refine ⟨?_, ihes (fun e he => hs e (by simp [he])) hrest fun e he => ih e (by simp [he]), ?_⟩
    · split
      · exact List.Pairwise.nil
      · exact ih e List.mem_cons_self
    · intro a ha b hb
      split at ha
      · simp at ha
      · obtain ⟨k, hk, -, hb⟩ := mem_listingInside_iff.1 hb
        obtain ⟨front, ha⟩ := prefix_of_mem_listing (hs e List.mem_cons_self) ha
        obtain ⟨rest, hb⟩ := prefix_of_mem_listing (hs k (List.mem_cons_of_mem _ hk)) hb
        exact .inr ⟨here, e.1, k.1, front, rest, by simp [← ha], by simp [← hb], hfirst k hk⟩

theorem pairwise_before_listing (hs : n.Sound) :
    (n.listing prune here).Pairwise fun a b => a.1.Before b.1 := by
  induction n using inductionOn generalizing here with
  | file content modified => exact List.pairwise_singleton _ _
  | link target => exact List.pairwise_singleton _ _
  | directory es ih =>
    rw [listing, List.pairwise_cons]
    constructor
    · intro b hb
      obtain ⟨e, he, -, hb⟩ := mem_listingInside_iff.1 hb
      obtain ⟨rest, hb⟩ := prefix_of_mem_listing (hs.of_mem he) hb
      exact .inl ⟨e.1, rest, by simp [← hb]⟩
    · exact pairwise_before_listingInside (fun e he => hs.of_mem he) hs.ascending
        fun e he => ih e he (hs.of_mem he)

end Node

end Folio
