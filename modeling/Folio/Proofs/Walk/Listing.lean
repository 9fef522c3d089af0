import Folio.Walk.Flatten
import Folio.Proofs.Disk.Tree

/-!
# What a walk meets

A walk with links not followed meets the places of a tree from the top down. A place is met unless a
directory on the way to it, or the place itself as a directory, is pruned.
-/
namespace Folio

namespace Node

def kind : Node → Kind
  | .file .. => .file
  | .link _ => .link
  | .directory _ => .directory

mutual
/-- The places from `here` down, without the directories that `prune` names and all below these. -/
def listing (prune : Place → Bool) (here : Place) : Node → List (Place × Kind)
  | .file .. => [(here, .file)]
  | .link _ => [(here, .link)]
  | .directory es => (here, .directory) :: listingInside prune here es

def listingInside (prune : Place → Bool) (here : Place) : List (Bytes × Node) → List (Place × Kind)
  | [] => []
  | (name, node) :: rest =>
    (if node.isDirectory && prune (here ++ [name]) then []
      else node.listing prune (here ++ [name])) ++ listingInside prune here rest
end

variable {n : Node} {es : List (Bytes × Node)} {prune : Place → Bool} {here : Place}
  {found : Place × Kind}

theorem mem_listingInside_iff : found ∈ listingInside prune here es ↔
    ∃ e ∈ es, (e.2.isDirectory && prune (here ++ [e.1])) = false ∧
      found ∈ e.2.listing prune (here ++ [e.1]) := by
  induction es with
  | nil => simp [listingInside]
  | cons e es ih =>
    obtain ⟨name, node⟩ := e
    simp only [listingInside, List.mem_append, ih, List.mem_cons, exists_eq_or_imp]
    cases node.isDirectory && prune (here ++ [name]) <;> simp only [List.not_mem_nil, if_true,
      Bool.false_eq_true, Bool.true_eq_false, if_false, false_and, true_and]

/-- No directory below the top of a tree and down to `below` is pruned. -/
def IsOpen (prune : Place → Bool) (here : Place) (n : Node) (below : Place) : Prop :=
  ∀ front, front ≠ [] → front <+: below → ∀ es, n.at? front = some (.directory es) →
    prune (here ++ front) = false

theorem isOpen_nil : n.IsOpen prune here [] := by
  intro front hf hp
  exact absurd (List.prefix_nil.1 hp) hf

theorem isOpen_cons_iff {name : Bytes} {below : Place} {c : Node} (hl : es.lookup name = some c) :
    (directory es).IsOpen prune here (name :: below) ↔
      (c.isDirectory && prune (here ++ [name])) = false ∧ c.IsOpen prune (here ++ [name]) below := by
  constructor
  · intro h
    constructor
    · cases c with
      | directory inner =>
        have hfirst := h [name] (by simp) (by simp) inner (by rw [at?_directory_cons, hl]; rfl)
        simpa [isDirectory] using hfirst
      | _ => rfl
    · intro front hf hp inner hi
      have hrest := h (name :: front) (by simp) (by simpa using hp) inner
        (by rw [at?_directory_cons, hl]; exact hi)
      simpa using hrest
  · intro h front hf hp inner hi
    obtain ⟨k, front, rfl⟩ := List.exists_cons_of_ne_nil hf
    obtain ⟨rfl, hrest⟩ := List.cons_prefix_cons.1 hp
    rw [at?_directory_cons, hl] at hi
    by_cases hfront : front = []
    · subst hfront
      cases Option.some.inj hi
      simpa [isDirectory] using h.1
    · simpa using h.2 front hfront hrest inner hi

/-- A walk meets what stands in the tree and is not behind a pruned directory. -/
theorem mem_listing_iff (hs : n.Sound) : found ∈ n.listing prune here ↔
    ∃ below m, found = (here ++ below, m.kind) ∧ n.at? below = some m ∧
      n.IsOpen prune here below := by
  induction n using inductionOn generalizing here with
  | file content modified =>
    constructor
    · intro h
      exact ⟨[], _, by simpa [listing, kind] using h, rfl, isOpen_nil⟩
    · intro h
      obtain ⟨below, m, rfl, hm, -⟩ := h
      cases below with
      | nil => cases hm; simp [listing, kind]
      | cons name rest => cases hm
  | link target =>
    constructor
    · intro h
      exact ⟨[], _, by simpa [listing, kind] using h, rfl, isOpen_nil⟩
    · intro h
      obtain ⟨below, m, rfl, hm, -⟩ := h
      cases below with
      | nil => cases hm; simp [listing, kind]
      | cons name rest => cases hm
  | directory es ih =>
    rw [listing, List.mem_cons, mem_listingInside_iff]
    constructor
    · intro h
      rcases h with rfl | ⟨e, he, hp, h⟩
      · exact ⟨[], _, by simp [kind], rfl, isOpen_nil⟩
      · obtain ⟨below, m, rfl, hm, ho⟩ := (ih e he (hs.of_mem he)).1 h
        have hl := hs.lookup_iff.2 he
        refine ⟨e.1 :: below, m, by simp, ?_, (isOpen_cons_iff hl).2 ⟨hp, ho⟩⟩
        rw [at?_directory_cons, hl]
        exact hm
    · intro h
      obtain ⟨below, m, rfl, hm, ho⟩ := h
      cases below with
      | nil =>
        cases hm
        exact .inl (by simp [kind])
      | cons name rest =>
        obtain ⟨_, c, he, hl, hc⟩ := at?_cons_eq_some hm
        cases he
        obtain ⟨hp, ho⟩ := (isOpen_cons_iff hl).1 ho
        have hmem := hs.lookup_iff.1 hl
        refine .inr ⟨(name, c), hmem, hp, (ih _ hmem (hs.of_mem hmem)).2 ⟨rest, m, ?_, hc, ho⟩⟩
        simp

theorem prefix_of_mem_listing (hs : n.Sound) (h : found ∈ n.listing prune here) :
    here <+: found.1 := by
  obtain ⟨below, m, rfl, -, -⟩ := (mem_listing_iff hs).1 h
  exact List.prefix_append here below

theorem pairwise_listingInside (hn : (es.map (·.1)).Nodup) (hs : ∀ e ∈ es, e.2.Sound)
    (ih : ∀ e ∈ es, (e.2.listing prune (here ++ [e.1])).Pairwise fun a b => ¬ b.1 <+: a.1) :
    (listingInside prune here es).Pairwise fun a b => ¬ b.1 <+: a.1 := by
  induction es with
  | nil => exact List.Pairwise.nil
  | cons e es ihes =>
    rw [List.map_cons, List.nodup_cons] at hn
    rw [listingInside, List.pairwise_append]
    refine ⟨?_, ihes hn.2 (fun e he => hs e (by simp [he])) fun e he => ih e (by simp [he]), ?_⟩
    · split
      · exact List.Pairwise.nil
      · exact ih e List.mem_cons_self
    · intro a ha b hb hba
      split at ha
      · simp at ha
      · obtain ⟨k, hk, -, hb⟩ := mem_listingInside_iff.1 hb
        have ha := prefix_of_mem_listing (hs e List.mem_cons_self) ha
        have hb := (prefix_of_mem_listing (hs k (List.mem_cons_of_mem _ hk)) hb).trans hba
        -- two children on the way to one place would have the same name
        have heq := (List.prefix_of_prefix_length_le ha hb (by simp)).eq_of_length (by simp)
        have hname : e.1 = k.1 := by simpa using heq
        exact hn.1 (List.mem_map.2 ⟨k, hk, hname.symm⟩)

/-- No directory is met after what is inside it, and no place twice. -/
theorem pairwise_listing (hs : n.Sound) :
    (n.listing prune here).Pairwise fun a b => ¬ b.1 <+: a.1 := by
  induction n using inductionOn generalizing here with
  | file content modified => exact List.pairwise_singleton _ _
  | link target => exact List.pairwise_singleton _ _
  | directory es ih =>
    rw [listing, List.pairwise_cons]
    constructor
    · intro b hb hba
      obtain ⟨e, he, -, hb⟩ := mem_listingInside_iff.1 hb
      have hlength := ((prefix_of_mem_listing (hs.of_mem he) hb).trans hba).length_le
      rw [List.length_append, List.length_singleton] at hlength
      exact Nat.not_succ_le_self here.length hlength
    · exact pairwise_listingInside hs.ascending.nodup (fun e he => hs.of_mem he)
        fun e he => ih e he (hs.of_mem he)

end Node

namespace Disk
variable {disk : Disk} {n : Node} {place here : Place} {prune : Path → Bool} {way : List Ancestor}
  {route : Place → Path}

def foundBy (route : Place → Path) (found : Place × Kind) : Found := .ok ⟨route found.1, found.2⟩

def foundAt (found : Place × Kind) : Found := .ok ⟨pathOf found.1, found.2⟩

section
variable (hroute : ∀ here name, (∀ m ∈ here, IsFileName m) → IsFileName name →
  (route here).join name = route (here ++ [name]))
include hroute

theorem flattenInside_visitEntries {es : List (Bytes × Node)}
    (hp : ∀ m ∈ here, IsFileName m) (hn : ∀ e ∈ es, IsFileName e.1)
    (ih : ∀ e ∈ es, (e.2.visit (fun _ => true) (fun _ => Visit.ofLink) way (place ++ [e.1])
      (route (here ++ [e.1]))).flatten prune =
        (e.2.listing (fun p => prune (route p)) (here ++ [e.1])).map (foundBy route)) :
    Visit.flattenInside prune
        (visitEntries (fun _ => true) (fun _ => Visit.ofLink) way place (route here) es) =
      (Node.listingInside (fun p => prune (route p)) here es).map (foundBy route) := by
  induction es with
  | nil => rfl
  | cons e es ihes =>
    obtain ⟨name, node⟩ := e
    have hrest := ihes (fun e he => hn e (by simp [he])) (fun e he => ih e (by simp [he]))
    have hnode := ih (name, node) (by simp)
    simp only [visitEntries, Node.listingInside, if_true, hroute _ _ hp (hn _ List.mem_cons_self),
      List.map_append, ← hrest]
    cases node with
    | directory inner =>
      rw [Node.visit, Visit.flatten] at hnode
      rw [Node.visit, Visit.flattenInside, hnode]
      congr 1
      by_cases hprune : prune (route (here ++ [name])) = true <;>
        simp [Node.isDirectory, hprune]
    | file content modified => simp [Node.visit, Visit.flattenInside, Visit.flatten, Node.listing,
        Node.isDirectory, foundBy]
    | link target => simp [Node.visit, Visit.ofLink, Visit.flattenInside, Visit.flatten,
        Node.listing, Node.isDirectory, foundBy]

theorem flatten_visit (hs : n.Sound) (hp : ∀ m ∈ here, IsFileName m) :
    (n.visit (fun _ => true) (fun _ => Visit.ofLink) way place (route here)).flatten prune =
      (n.listing (fun p => prune (route p)) here).map (foundBy route) := by
  induction n using Node.inductionOn generalizing place here way with
  | file content modified => rfl
  | link target => rfl
  | directory es ih =>
    have hes := hs [] es rfl
    rw [Node.visit, Visit.flatten, Node.listing, List.map_cons]
    congr 1
    apply flattenInside_visitEntries hroute hp hes.2
    intro e he
    apply ih e he (hs.of_mem he)
    intro m hm
    rcases List.mem_append.1 hm with hm | hm
    · exact hp m hm
    · exact List.mem_singleton.1 hm ▸ hes.2 e he

end

theorem walk_pathOf {es : List (Bytes × Node)}
    (h : disk.top.at? place = some (.directory es)) :
    disk.walk false prune (pathOf place) =
      ((Node.directory es).listing (fun p => prune (pathOf p)) place).map foundAt := by
  have hfind : disk.find false (pathOf place) = .ok (place, .directory es) :=
    find_pathOf h (fun _ => rfl) (by simp)
  rw [walk, visit, hfind]
  exact flatten_visit (fun _ _ => join_pathOf) (disk.sound.at h) fun m hm => disk.sound.isFileName_of_mem h hm

end Disk
end Folio
