import Folio.Proofs.Target.Way

/-!
# Targets that stay in a tree

A relative target stays in the tree that the working directory is in if neither the path that it spells nor
the search that it asks for leads out of this tree. The way up is taken by a component that is its name, and
by a wildcard behind a dot. A target without either stays in every tree.
-/
namespace Folio.Target
open Disk
open Folio.Path (slash dot)
variable {depth : Nat} {pieces : List Piece} {target : Text} {sub : Place}

/-- From the directory `sub` of a tree the target does not lead out of the tree, neither as a path nor as a
search pattern. -/
structure KeepsWithin (sub : Place) (target : Text) : Prop where
  relative : target.head? ≠ some '/'
  path : StaysIn sub (steps (Utf8.encode target))
  pattern : ∀ pieces, (componentTexts target).mapM Glob.parse = .ok pieces →
    keeps sub.length (collapse pieces) = true

theorem forall₂_parse {texts : List Text} (h : texts.mapM Glob.parse = .ok pieces) :
    List.Forall₂ (fun text piece => Glob.parse text = .ok piece) texts pieces := by
  induction texts generalizing pieces with
  | nil =>
    cases h
    exact .nil
  | cons text texts ih =>
    rw [List.mapM_cons] at h
    cases hfirst : Glob.parse text with
    | error fault =>
      rw [hfirst] at h
      cases h
    | ok first =>
      cases hrest : texts.mapM Glob.parse with
      | error fault =>
        rw [hfirst, hrest] at h
        cases h
      | ok rest =>
        rw [hfirst, hrest] at h
        cases h
        exact .cons hfirst (ih hrest)

theorem exists_parse_of_mem {texts : List Text} (h : texts.mapM Glob.parse = .ok pieces) {piece : Piece}
    (hp : piece ∈ pieces) : ∃ text ∈ texts, Glob.parse text = .ok piece := by
  obtain ⟨i, hi, rfl⟩ := List.mem_iff_getElem.1 hp
  obtain ⟨hlength, hparse⟩ := List.forall₂_iff_get.1 (forall₂_parse h)
  have hi' : i < texts.length := hlength ▸ hi
  exact ⟨texts[i], List.getElem_mem hi', hparse i hi' hi⟩

theorem mem_splitOn_of_mem_componentTexts {text : Text} (h : text ∈ componentTexts target) :
    text ∈ target.splitOn '/' := by
  unfold componentTexts at h
  split at h
  · cases h
  · rw [Text.beforeLast?] at h
    split at h
    next hl =>
      obtain ⟨front, rfl⟩ := List.getLast?_eq_some_iff.1 hl
      rw [List.splitOn_append_cons_self]
      exact List.mem_append_left _ (by simpa using h)
    next => exact h

theorem mem_splitOn_of_literal (h : (componentTexts target).mapM Glob.parse = .ok pieces) {piece : Piece}
    (hp : piece ∈ pieces) {name : Text} (hl : Glob.literalText? piece = some name) :
    name ∈ target.splitOn '/' := by
  obtain ⟨text, htext, hparse⟩ := exists_parse_of_mem h hp
  rw [Glob.eq_of_parseFrom hparse hl]
  exact mem_splitOn_of_mem_componentTexts htext

theorem slash_notMem_literal (h : (componentTexts target).mapM Glob.parse = .ok pieces) :
    ∀ piece ∈ collapse pieces, ∀ name, Glob.literalText? piece = some name → '/' ∉ name :=
  fun _ hp _ hl => Text.notMem_of_mem_splitOn (mem_splitOn_of_literal h (mem_of_mem_collapse hp) hl)

theorem eq_of_leadsUp {piece : Piece} (hu : leadsUp piece = true) {name : Text}
    (hl : Glob.literalText? piece = some name) : name = ['.', '.'] := by
  have hmem : [dot, dot] ∈ specialNames piece := List.contains_iff_mem.1 hu
  unfold specialNames at hmem
  split at hmem
  · have htakes := (List.mem_filter.1 hmem).2
    have hdots : Utf8.decode? [dot, dot] = some ['.', '.'] := by decide
    rw [takes, hdots, Option.any_some, Glob.accepts_of_literalText? hl, decide_eq_true_eq] at htakes
    exact htakes.symm
  · cases hmem

/-- Every name of a way leads one directory further down. -/
theorem keeps_escaped {way : Place} (hn : ∀ n ∈ way, IsFileName n) :
    keeps depth (way.map escaped ++ pieces) = keeps (depth + way.length) pieces := by
  induction way generalizing depth with
  | nil => rfl
  | cons name way ih =>
    rw [List.forall_mem_cons] at hn
    have hempty : (escaped name).isEmpty = false := by
      have hname : Utf8.decodeLossy name ≠ [] := mt Utf8.decodeLossy_eq_nil_iff.1 hn.1.nonempty
      simp [escaped, hname]
    rw [List.map_cons, List.cons_append, keeps.eq_def]
    simp [isDeep_escaped, leadsUp, staysPut, specialNames_escaped hn.1, hempty, ih hn.2, Nat.add_assoc,
      Nat.add_comm 1]

/-- Pieces that do not take the way up, except a wildcard at the end, keep within every tree. -/
theorem keeps_of_not_leadsUp (hl : ∀ piece ∈ pieces, Glob.literalText? piece ≠ some ['.', '.'])
    (hw : ∀ piece ∈ pieces.dropLast, leadsUp piece = false) : keeps depth pieces = true := by
  fun_induction keeps depth pieces with
  | case1 => rfl
  | case2 => rfl
  | case3 depth piece hdeep next rest ih =>
    cases rest with
    | nil => rfl
    | cons after rest =>
      exact ih (fun r hr => hl r (by simp_all)) fun r hr => hw r (by simp_all)
  | case4 depth piece rest hdeep hleads ih =>
    rw [Bool.and_eq_true] at hleads
    obtain ⟨hup, hplace⟩ := hleads
    cases rest with
    | nil =>
      obtain ⟨name, hname⟩ := Option.isSome_iff_exists.1 (by simpa using hplace)
      rw [eq_of_leadsUp hup hname] at hname
      exact absurd hname (hl piece (by simp))
    | cons next rest =>
      rw [hw piece (by simp)] at hup
      cases hup
  | case5 depth piece rest hdeep hleads ih =>
    cases rest with
    | nil => rfl
    | cons next rest =>
      exact ih (fun r hr => hl r (by simp_all)) fun r hr => hw r (by simp_all)

theorem collapse_ne_nil (h : pieces ≠ []) : collapse pieces ≠ [] := by
  fun_induction collapse pieces with
  | case1 p q rest hd ih => exact ih (List.cons_ne_nil q rest)
  | case2 p q rest hd ih => exact List.cons_ne_nil p _
  | case3 ps hps => exact h

theorem dropLast_collapse_subset (pieces : List Piece) : (collapse pieces).dropLast ⊆ pieces.dropLast := by
  fun_induction collapse pieces with
  | case1 p q rest hd ih =>
    rw [List.dropLast_cons_cons]
    exact List.Subset.trans ih (List.subset_cons_self p _)
  | case2 p q rest hd ih =>
    rw [List.dropLast_cons_of_ne_nil (collapse_ne_nil (List.cons_ne_nil q rest)), List.dropLast_cons_cons]
    exact List.cons_subset_cons p ih
  | case3 ps hps => exact List.Subset.refl _

theorem staysIn_of_not_up {ss : List Step} (h : .up ∉ ss) : StaysIn sub ss := by
  induction ss generalizing sub with
  | nil => trivial
  | cons step ss ih =>
    rw [List.mem_cons, not_or] at h
    exact ⟨fun hs => absurd hs.symm h.1, ih h.2⟩

theorem splitOn_encode (t : Text) :
    (Utf8.encode t).splitOn slash = (t.splitOn '/').map Utf8.encode := by
  have hpieces := Utf8.encode_intercalate (b := slash) (by decide) (t.splitOn '/')
  have ht : [Char.ofNat slash.toNat].intercalate (t.splitOn '/') = t := List.intercalate_splitOn '/'
  rw [ht] at hpieces
  rw [hpieces]
  refine List.splitOn_intercalate slash (fun n hn => ?_) (by simp)
  obtain ⟨piece, hpiece, rfl⟩ := List.mem_map.1 hn
  exact mt (Utf8.mem_encode_iff (by decide)).1 (Text.notMem_of_mem_splitOn hpiece)

/-- A target without the way up stays in every tree: no component is its name, and none in front of the last
one is a wildcard that takes it. -/
theorem keepsWithin_of_not_up (hrelative : target.head? ≠ some '/') (hup : ['.', '.'] ∉ target.splitOn '/')
    (hwild : ∀ pieces, (componentTexts target).mapM Glob.parse = .ok pieces →
      ∀ piece ∈ pieces.dropLast, leadsUp piece = false) : KeepsWithin sub target := by
  refine ⟨hrelative, staysIn_of_not_up fun h => ?_, fun pieces hp => ?_⟩
  · rw [steps, splitOn_encode, List.map_map] at h
    obtain ⟨piece, hpiece, hs⟩ := List.mem_map.1 h
    have hpiece' : piece = ['.', '.'] := Utf8.encode_inj.1 (eq_of_ofPiece_up hs)
    exact hup (hpiece' ▸ hpiece)
  · apply keeps_of_not_leadsUp
    · intro piece hpiece hl
      exact hup (mem_splitOn_of_literal hp (mem_of_mem_collapse hpiece) hl)
    · intro piece hpiece
      exact hwild pieces hp piece (dropLast_collapse_subset pieces hpiece)

/-- So a target of one component stays in every tree unless it is the way up. -/
theorem keepsWithin_component (hslash : '/' ∉ target) (hup : target ≠ ['.', '.']) :
    KeepsWithin sub target := by
  have hsplit : target.splitOn '/' = [target] := List.splitOn_eq_singleton hslash
  refine keepsWithin_of_not_up (fun h => hslash (List.mem_of_mem_head? h)) ?_ fun pieces hp => ?_
  · rw [hsplit, List.mem_singleton]
    exact hup.symm
  · have htexts : (componentTexts target).length ≤ 1 := by
      have hlast : target.getLast? ≠ some '/' := fun h => hslash (List.mem_of_getLast? h)
      rw [componentTexts, Text.beforeLast?, if_neg hlast, Option.getD_none, hsplit]
      split <;> simp
    rw [(forall₂_parse hp).length_eq] at htexts
    have hnil : pieces.dropLast = [] := List.eq_nil_of_length_eq_zero (by
      rw [List.length_dropLast]
      omega)
    simp [hnil]

end Folio.Target
