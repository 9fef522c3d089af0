import Folio.Disk.Node
import Folio.Path.Basic

/-!
# Sound trees

The trees that a file system can hold: the entries of a directory have possible names and stand in
ascending order of them. Putting a node in and taking one away leave a tree sound.
-/
namespace Folio

namespace Disk

/-- The number of bytes that one name may have. -/
def maxNameSize : Nat := 255

structure IsFileName (n : Bytes) : Prop where
  nonempty : n ≠ []
  no_slash : Path.slash ∉ n
  not_dot : n ≠ [Path.dot]
  not_dots : n ≠ [Path.dot, Path.dot]
  no_nul : 0 ∉ n
  size : n.length ≤ maxNameSize

instance (n : Bytes) : Decidable (IsFileName n) :=
  decidable_of_iff (n ≠ [] ∧ Path.slash ∉ n ∧ n ≠ [Path.dot] ∧ n ≠ [Path.dot, Path.dot] ∧ 0 ∉ n ∧
    n.length ≤ maxNameSize)
    ⟨fun ⟨h₁, h₂, h₃, h₄, h₅, h₆⟩ => ⟨h₁, h₂, h₃, h₄, h₅, h₆⟩,
      fun h => ⟨h.nonempty, h.no_slash, h.not_dot, h.not_dots, h.no_nul, h.size⟩⟩

end Disk

namespace Node
variable {top n c new : Node} {es : List (Bytes × Node)} {name : Bytes} {place below : Place}
  {content : Bytes} {modified : Int} {target : Bytes}

/-- Every directory lists entries of possible names in ascending order. -/
def Sound (top : Node) : Prop :=
  ∀ place es, top.at? place = some (.directory es) →
    Index.Ascending es ∧ ∀ e ∈ es, Disk.IsFileName e.1

theorem at?_append (n : Node) (place below : Place) :
    n.at? (place ++ below) = (n.at? place).bind (·.at? below) := by
  induction place generalizing n with
  | nil => rfl
  | cons name rest ih =>
    simp only [List.cons_append, at?, Option.bind_assoc]
    congr 1
    funext c
    exact ih c

theorem at?_directory_cons :
    (directory es).at? (name :: below) = (es.lookup name).bind (·.at? below) := rfl

/-- Only a directory has anything below it. -/
theorem at?_cons_eq_some (h : n.at? (name :: below) = some c) :
    ∃ es m, n = .directory es ∧ es.lookup name = some m ∧ m.at? below = some c := by
  obtain ⟨m, hm, hc⟩ := Option.bind_eq_some_iff.1 h
  cases n with
  | directory es => exact ⟨es, m, rfl, hm, hc⟩
  | _ => simp [child?, entries] at hm

theorem sound_file : (file content modified).Sound := by
  intro place es h
  cases place with
  | nil => cases h
  | cons name rest => cases h

theorem sound_link : (link target).Sound := by
  intro place es h
  cases place with
  | nil => cases h
  | cons name rest => cases h

theorem sound_empty : empty.Sound := by
  intro place es h
  cases place with
  | nil =>
    cases h
    exact ⟨List.Pairwise.nil, by simp⟩
  | cons name rest => cases h

theorem Sound.at (hs : top.Sound) (h : top.at? place = some n) : n.Sound := by
  intro below es he
  apply hs (place ++ below)
  rw [at?_append, h]
  exact he

theorem Sound.child (hs : n.Sound) (h : n.child? name = some c) : c.Sound := by
  have hat : n.at? [name] = some c := by
    rw [at?, h]
    rfl
  exact hs.at hat

theorem Sound.ascending (hs : n.Sound) : Index.Ascending n.entries := by
  cases n with
  | directory es => exact (hs [] es rfl).1
  | _ => exact List.Pairwise.nil

theorem Sound.isFileName (hs : n.Sound) : ∀ e ∈ n.entries, Disk.IsFileName e.1 := by
  cases n with
  | directory es => exact (hs [] es rfl).2
  | _ => simp [entries]

theorem Sound.lookup_iff (hs : (directory es).Sound) : es.lookup name = some c ↔ (name, c) ∈ es :=
  (Index.mem_iff_find? hs.ascending).symm

theorem Sound.of_mem {e : Bytes × Node} (hs : (directory es).Sound) (he : e ∈ es) : e.2.Sound :=
  hs.child (hs.lookup_iff.2 he)

theorem Sound.isFileName_of_mem (hs : top.Sound) (h : top.at? place = some n) (hm : name ∈ place) :
    Disk.IsFileName name := by
  induction place generalizing top with
  | nil => simp at hm
  | cons k rest ih =>
    obtain ⟨es, m, rfl, hl, hr⟩ := at?_cons_eq_some h
    have he := hs.lookup_iff.1 hl
    rcases List.mem_cons.1 hm with rfl | hm
    · exact hs.isFileName _ he
    · exact ih (hs.of_mem he) hr hm

theorem sound_directory (ho : Index.Ascending es) (hn : ∀ e ∈ es, Disk.IsFileName e.1)
    (hs : ∀ e ∈ es, e.2.Sound) : (directory es).Sound := by
  intro place inner h
  cases place with
  | nil =>
    cases h
    exact ⟨ho, hn⟩
  | cons name rest =>
    obtain ⟨_, c, he, hl, hc⟩ := at?_cons_eq_some h
    cases he
    exact hs _ ((Index.mem_iff_find? ho).2 hl) rest inner hc

/-! ### The check of a tree -/

mutual
/-- The check of a whole tree, entry by entry. -/
def checks : Node → Bool
  | .file .. => true
  | .link _ => true
  | .directory es => decide (Index.Ascending es) && checksInside es

def checksInside : List (Bytes × Node) → Bool
  | [] => true
  | (name, node) :: rest => decide (Disk.IsFileName name) && node.checks && checksInside rest
end

theorem checksInside_iff : checksInside es = true ↔
    ∀ e ∈ es, Disk.IsFileName e.1 ∧ e.2.checks = true := by
  induction es with
  | nil => simp [checksInside]
  | cons e es ih => simp [checksInside, ih]

theorem checks_iff : n.checks = true ↔ n.Sound := by
  induction n using inductionOn with
  | file content modified => exact ⟨fun _ => sound_file, fun _ => rfl⟩
  | link target => exact ⟨fun _ => sound_link, fun _ => rfl⟩
  | directory es ih =>
    rw [checks, Bool.and_eq_true, decide_eq_true_eq, checksInside_iff]
    constructor
    · intro h
      exact sound_directory h.1 (fun e he => (h.2 e he).1) fun e he => (ih e he).1 (h.2 e he).2
    · intro hs
      exact ⟨hs.ascending, fun e he => ⟨hs.isFileName e he, (ih e he).2 (hs.of_mem he)⟩⟩

instance (n : Node) : Decidable n.Sound := decidable_of_iff (n.checks = true) checks_iff

/-! ### Changes -/

/-- A directory stays sound when what stands under one possible name becomes another sound node. -/
theorem Sound.alter {f : Option Node → Node} (hs : n.Sound) (hname : Disk.IsFileName name)
    (hf : (f (n.child? name)).Sound) : (directory (Index.alter name f n.entries)).Sound := by
  refine sound_directory (hs.ascending.alter name f) ?_ ?_
  · intro e he
    rcases Index.mem_alter_key he with he | ⟨c, hc⟩
    · exact he ▸ hname
    · exact hs.isFileName (e.1, c) hc
  · intro e he
    have hl : Index.find? e.1 (Index.alter name f n.entries) = some e.2 :=
      (Index.mem_iff_find? (hs.ascending.alter name f)).1 he
    rw [Index.find?_alter hs.ascending] at hl
    split at hl
    · exact Option.some.inj hl ▸ hf
    · exact hs.child hl

theorem Sound.erase (hs : n.Sound) (name : Bytes) : (directory (Index.erase name n.entries)).Sound := by
  have hmem : ∀ e ∈ Index.erase name n.entries, e ∈ n.entries := fun e he => (List.mem_filter.1 he).1
  refine sound_directory (hs.ascending.erase name) (fun e he => hs.isFileName e (hmem e he)) ?_
  intro e he
  exact hs.child ((Index.mem_iff_find? hs.ascending).1 (hmem e he))

theorem Sound.put (hs : n.Sound) (hnew : new.Sound) (hp : ∀ name ∈ place, Disk.IsFileName name) :
    (put new place n).Sound := by
  induction place generalizing n with
  | nil => exact hnew
  | cons name rest ih =>
    refine hs.alter (hp name (by simp)) (ih ?_ fun m hm => hp m (by simp [hm]))
    cases hc : n.child? name with
    | none => exact sound_empty
    | some c => exact hs.child hc

theorem Sound.remove (hs : n.Sound) (place : Place) : (remove place n).Sound := by
  fun_induction Node.remove place n with
  | case1 => exact hs
  | case2 => exact hs.erase _
  | case3 name rest n _ c hc ih =>
    have hname := hs.isFileName _ ((Index.mem_iff_find? hs.ascending).2 hc)
    exact hs.alter hname (ih (hs.child hc))
  | case4 => exact hs

end Node
end Folio
