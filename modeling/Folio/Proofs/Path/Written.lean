import Mathlib.Data.List.Basic
import Folio.Path.Clean
import Folio.Proofs.Path.Below

/-!
# Written paths

The components of an absolute path are written in such a way that they are read back. So a cleaned path, of
which there is one spelling only, is told by its components.
-/
namespace Folio
variable {c : Component} {cs done : List Component} {piece t : Bytes}

namespace Component
open Folio.Path (slash dot)

/-- Some piece between two slashes stands for the component. -/
def IsWritten (c : Component) : Prop := ∃ piece, slash ∉ piece ∧ ofPiece? piece = some c

theorem piece?_of_ofPiece? (h : ofPiece? piece = some c) : c.piece? = some piece := by
  unfold ofPiece? at h
  split at h
  · cases h
  · split at h
    next hd =>
      cases h
      rw [hd]
      rfl
    next =>
      cases h
      rfl

theorem isWritten_of_mem (h : c ∈ (t.splitOn slash).filterMap ofPiece?) : c.IsWritten := by
  obtain ⟨piece, hp, hc⟩ := List.mem_filterMap.1 h
  exact ⟨piece, Text.notMem_of_mem_splitOn hp, hc⟩

theorem IsWritten.ne_root (h : c.IsWritten) : c ≠ .root := by
  obtain ⟨piece, -, hc⟩ := h
  rintro rfl
  cases piece?_of_ofPiece? hc

theorem IsWritten.ne_here (h : c.IsWritten) : c ≠ .here := by
  obtain ⟨piece, -, hc⟩ := h
  rintro rfl
  cases piece?_of_ofPiece? hc

theorem exists_filterMap_piece?_cons (h : c.IsWritten) (cs : List Component) : ∃ piece, piece ≠ [] ∧
    slash ∉ piece ∧ ofPiece? piece = some c ∧ (c :: cs).filterMap piece? = piece :: cs.filterMap piece? := by
  obtain ⟨piece, hslash, hc⟩ := h
  refine ⟨piece, ?_, hslash, hc, List.filterMap_cons_some (piece?_of_ofPiece? hc)⟩
  rintro rfl
  cases hc

theorem mem_pieces (h : ∀ c ∈ cs, c.IsWritten) (hp : piece ∈ cs.filterMap piece?) :
    piece ≠ [] ∧ slash ∉ piece := by
  obtain ⟨c, hc, hpiece⟩ := List.mem_filterMap.1 hp
  obtain ⟨written, hslash, hw⟩ := h c hc
  rw [piece?_of_ofPiece? hw] at hpiece
  cases hpiece
  refine ⟨?_, hslash⟩
  rintro rfl
  cases hw

theorem filterMap_pieces (h : ∀ c ∈ cs, c.IsWritten) : (cs.filterMap piece?).filterMap ofPiece? = cs := by
  induction cs with
  | nil => rfl
  | cons c cs ih =>
    obtain ⟨piece, -, -, hc, hcons⟩ := exists_filterMap_piece?_cons (h c List.mem_cons_self) cs
    rw [hcons, List.filterMap_cons_some hc, ih fun d hd => h d (List.mem_cons_of_mem c hd)]

/-- Components are read back from the bytes that they are written as. -/
theorem filterMap_splitOn_intercalate (h : ∀ c ∈ cs, c.IsWritten) :
    (([slash].intercalate (cs.filterMap piece?)).splitOn slash).filterMap ofPiece? = cs := by
  by_cases hne : cs.filterMap piece? = []
  · have hcs := filterMap_pieces h
    rw [hne] at hcs ⊢
    rw [← hcs]
    rfl
  · rw [List.splitOn_intercalate slash (fun _ hp => (mem_pieces h hp).2) hne, filterMap_pieces h]

end Component

namespace Path
open Disk Component
variable {p q root : Path} {n : Bytes} {names : List Bytes}

def IsRooted (cs : List Component) : Prop := ∃ rest, cs = .root :: rest ∧ ∀ c ∈ rest, c.IsWritten

theorem components_slash (t : Bytes) :
    components ⟨slash :: t⟩ = .root :: (t.splitOn slash).filterMap ofPiece? := by
  rw [components, if_pos (by simp [isAbsolute]), List.splitOn_cons_eq_if_modifyHead, if_pos (by rfl)]
  rfl

theorem exists_eq_slash (hp : p.isAbsolute = true) : ∃ t, p = ⟨slash :: t⟩ := by
  obtain ⟨bytes⟩ := p
  rw [isAbsolute, decide_eq_true_eq] at hp
  obtain ⟨t, rfl⟩ := List.head?_eq_some_iff.1 hp
  exact ⟨t, rfl⟩

theorem isRooted_components (hp : p.isAbsolute = true) : IsRooted p.components := by
  obtain ⟨t, rfl⟩ := exists_eq_slash hp
  exact ⟨_, components_slash t, fun _ hc => isWritten_of_mem hc⟩

theorem written_root (cs : List Component) :
    written (.root :: cs) = slash :: [slash].intercalate (cs.filterMap piece?) :=
  rfl

theorem components_written (h : IsRooted cs) : components ⟨written cs⟩ = cs := by
  obtain ⟨rest, rfl, hw⟩ := h
  rw [written_root, components_slash, filterMap_splitOn_intercalate hw]

theorem written_eq_intercalate (h : ∀ c ∈ cs, c.IsWritten) :
    written cs = [slash].intercalate (cs.filterMap piece?) := by
  have hroot : cs.head? ≠ some .root := fun hh => (h _ (List.mem_of_head? hh)).ne_root rfl
  rw [written, if_neg hroot, List.nil_append]

theorem head?_written (h : ∀ c ∈ cs, c.IsWritten) : (written cs).head? ≠ some slash := by
  rw [written_eq_intercalate h]
  cases cs with
  | nil => simp
  | cons c cs =>
    obtain ⟨piece, hne, hslash, -, hcons⟩ := exists_filterMap_piece?_cons (h c List.mem_cons_self) cs
    rw [hcons, Text.head?_intercalate_cons hne]
    exact fun hh => hslash (List.mem_of_head? hh)

theorem components_join_written (hp : p.bytes ≠ []) (h : ∀ c ∈ cs, c.IsWritten) :
    (p.join (written cs)).components = p.components ++ cs := by
  rw [components_join_bytes hp (head?_written h), written_eq_intercalate h, filterMap_splitOn_intercalate h]

/-! ### Cleaned paths -/

theorem isRooted_cleanStep (hd : IsRooted done.reverse) (hc : c.IsWritten) :
    IsRooted (cleanStep done c).reverse := by
  obtain ⟨rest, hrest, hw⟩ := hd
  have hpush : IsRooted (c :: done).reverse := by
    refine ⟨rest ++ [c], by rw [List.reverse_cons, hrest, List.cons_append], fun d hm => ?_⟩
    rcases List.mem_append.1 hm with hm | hm
    · exact hw d hm
    · exact List.mem_singleton.1 hm ▸ hc
  cases c with
  | root => exact absurd rfl hc.ne_root
  | here => exact absurd rfl hc.ne_here
  | name n => exact hpush
  | up =>
    rw [List.reverse_eq_iff] at hrest
    rcases List.eq_nil_or_concat' rest with rfl | ⟨outer, last, rfl⟩
    · -- at the root a step up is dropped
      exact ⟨[], by rw [hrest]; rfl, by simp⟩
    · have hdone : done = last :: (.root :: outer).reverse := by simp [hrest]
      cases last with
      | name n =>
        rw [hdone]
        refine ⟨outer, by rw [cleanStep, List.reverse_reverse], fun d hm => ?_⟩
        exact hw d (List.mem_append_left _ hm)
      | up =>
        rw [hdone] at hpush ⊢
        exact hpush
      | root => exact absurd rfl (hw .root (by simp)).ne_root
      | here => exact absurd rfl (hw .here (by simp)).ne_here

theorem isRooted_foldl_cleanStep (hd : IsRooted done.reverse) (h : ∀ c ∈ cs, c.IsWritten) :
    IsRooted (cs.foldl cleanStep done).reverse := by
  induction cs generalizing done with
  | nil => exact hd
  | cons c cs ih =>
    exact ih (isRooted_cleanStep hd (h c List.mem_cons_self)) fun d hm => h d (List.mem_cons_of_mem c hm)

theorem isRooted_cleanComponents (h : IsRooted cs) : IsRooted (cleanComponents cs) := by
  obtain ⟨rest, rfl, hw⟩ := h
  have hfold : cleanComponents (.root :: rest) = (rest.foldl cleanStep [.root]).reverse := rfl
  rw [hfold]
  exact isRooted_foldl_cleanStep ⟨[], rfl, by simp⟩ hw

/-- The path is absolute and spelled as its components are written. -/
structure IsPlain (p : Path) : Prop where
  absolute : p.isAbsolute = true
  bytes_eq : p.bytes = written p.components

theorem isPlain_written (h : IsRooted cs) : IsPlain ⟨written cs⟩ := by
  refine ⟨?_, by rw [components_written h]⟩
  obtain ⟨rest, rfl, -⟩ := h
  rfl

theorem IsPlain.eq_of_components_eq (hp : p.IsPlain) (hq : q.IsPlain) (h : p.components = q.components) :
    p = q := by
  have hbytes : p.bytes = q.bytes := by rw [hp.bytes_eq, h, ← hq.bytes_eq]
  obtain ⟨bytes⟩ := p
  obtain ⟨others⟩ := q
  exact congrArg Path.mk hbytes

theorem clean_eq_written (hp : p.isAbsolute = true) : p.clean = ⟨written (cleanComponents p.components)⟩ := by
  obtain ⟨rest, hrest, -⟩ := isRooted_cleanComponents (isRooted_components hp)
  rw [clean, hrest]

theorem isPlain_clean (hp : p.isAbsolute = true) : p.clean.IsPlain := by
  rw [clean_eq_written hp]
  exact isPlain_written (isRooted_cleanComponents (isRooted_components hp))

theorem isAbsolute_join (hp : p.isAbsolute = true) (t : Bytes) : (p.join t).isAbsolute = true := by
  obtain ⟨front, rfl⟩ := exists_eq_slash hp
  rw [join]
  split
  next ht => simpa [isAbsolute] using ht
  next => split <;> rfl

theorem IsPlain.join (hp : p.IsPlain) (hn : IsFileName n) : (p.join n).IsPlain := by
  refine ⟨isAbsolute_join hp.absolute n, ?_⟩
  obtain ⟨cs, hcs, hw⟩ := isRooted_components hp.absolute
  have hpath : p = pathOf (cs.filterMap piece?) := by
    obtain ⟨bytes⟩ := p
    rw [pathOf, ← written_root, ← hcs, ← hp.bytes_eq]
  have hpieces : ([.name n] : List Component).filterMap piece? = [n] := rfl
  rw [components_join hn, hcs, List.cons_append, written_root, List.filterMap_append, hpieces, hpath,
    join_pathOf_pieces (fun _ hm => mem_pieces hw hm) fun h => hn.no_slash (List.mem_of_head? h)]
  rfl

theorem IsPlain.below (hp : p.IsPlain) (hn : ∀ n ∈ names, IsFileName n) : (p.below names).IsPlain := by
  induction names generalizing p with
  | nil => exact hp
  | cons n names ih => exact ih (hp.join (hn n List.mem_cons_self)) fun m hm => hn m (List.mem_cons_of_mem n hm)

theorem isAbsolute_below (hp : p.isAbsolute = true) (names : List Bytes) : (p.below names).isAbsolute = true := by
  induction names generalizing p with
  | nil => exact hp
  | cons n names ih => exact ih (isAbsolute_join hp n)

end Path
end Folio
