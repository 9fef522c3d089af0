import Folio.Proofs.Disk.Tree

/-!
# Paths below a path

Joining names to a path adds them to its components, whatever the path looks like. So the name of a path
below another one goes on from the name of that one, unless the root lies between the two.
-/
namespace Folio.Path
open Disk
variable {p q root : Path} {n : Bytes} {names front rest : List Bytes}

def lead (p : Path) : List Component :=
  if p.isAbsolute then [.root]
  else if (p.bytes.splitOn slash).head? = some [dot] then [.here] else []

theorem components_eq (p : Path) :
    p.components = p.lead ++ (p.bytes.splitOn slash).filterMap Component.ofPiece? := by
  unfold components lead
  split
  · rfl
  · obtain ⟨piece, rest, hs⟩ := List.exists_cons_of_ne_nil (List.splitOn_ne_nil slash p.bytes)
    simp only [hs, List.head?_cons, Option.some.injEq]
    split
    next hd =>
      subst hd
      rfl
    next => rfl

/-- What follows a slash does not change what the components begin with. -/
theorem lead_slash (t u v : Bytes) : lead ⟨t ++ slash :: u⟩ = lead ⟨t ++ slash :: v⟩ := by
  have hfirst : ∀ w, ((t ++ slash :: w).splitOn slash).head? = (t.splitOn slash).head? := by
    intro w
    obtain ⟨first, others, hs⟩ := List.exists_cons_of_ne_nil (List.splitOn_ne_nil slash t)
    rw [List.splitOn_append_cons_self, hs]
    rfl
  have habsolute : (t ++ slash :: u).head? = (t ++ slash :: v).head? := by cases t <;> rfl
  simp only [lead, isAbsolute, hfirst, habsolute]

theorem lead_append {t : Bytes} (ht : t ≠ []) (u : Bytes) : lead ⟨t ++ slash :: u⟩ = lead ⟨t⟩ := by
  obtain ⟨c, t, rfl⟩ := List.exists_cons_of_ne_nil ht
  obtain ⟨first, others, hs⟩ := List.exists_cons_of_ne_nil (List.splitOn_ne_nil slash (c :: t))
  simp only [lead, isAbsolute, List.splitOn_append_cons_self, hs]
  rfl

theorem components_join_bytes {t : Bytes} (hp : p.bytes ≠ []) (ht : t.head? ≠ some slash) :
    (p.join t).components = p.components ++ (t.splitOn slash).filterMap Component.ofPiece? := by
  have hnil : ([[]] : List Bytes).filterMap Component.ofPiece? = [] := rfl
  obtain ⟨front⟩ := p
  rw [components_eq, components_eq, join, if_neg ht]
  by_cases hl : front.getLast? = some slash
  · obtain ⟨u, rfl⟩ := List.getLast?_eq_some_iff.1 hl
    rw [if_pos (.inr hl), List.append_assoc, List.singleton_append, lead_slash u t [],
      List.splitOn_append_cons_self, List.splitOn_append_cons_self, List.filterMap_append,
      List.filterMap_append]
    simp [hnil]
  · rw [if_neg (not_or.2 ⟨hp, hl⟩), lead_append hp, List.splitOn_append_cons_self, List.filterMap_append,
      List.append_assoc]

theorem components_join (hn : IsFileName n) : (p.join n).components = p.components ++ [.name n] := by
  have hhead : n.head? ≠ some slash := fun h => hn.no_slash (List.mem_of_mem_head? h)
  have hsplit : n.splitOn slash = [n] := List.splitOn_eq_singleton hn.no_slash
  have hname : [n].filterMap Component.ofPiece? = [.name n] := by
    rw [List.filterMap_cons_some (ofPiece?_name hn)]
    rfl
  by_cases hp : p.bytes = []
  · obtain ⟨t⟩ := p
    obtain rfl : t = [] := hp
    have hlead : lead ⟨n⟩ = [] := by
      have hdot : n ≠ [dot] := hn.not_dot
      simp [lead, isAbsolute, hhead, hsplit, hdot]
    rw [components_eq, join, if_neg hhead]
    simp only [true_or, if_true, List.nil_append, hsplit, hname, hlead]
    rfl
  · rw [components_join_bytes hp hhead, hsplit, hname]

/-- The path that names lead to from a path. -/
def below (p : Path) (names : List Bytes) : Path := names.foldl join p

theorem below_append : p.below (front ++ rest) = (p.below front).below rest := by
  simp [below]

theorem components_below (hn : ∀ n ∈ names, IsFileName n) :
    (p.below names).components = p.components ++ names.map .name := by
  induction names generalizing p with
  | nil => simp [below]
  | cons n names ih =>
    have hrest := ih (p := p.join n) fun m hm => hn m (by simp [hm])
    have hfirst := components_join (p := p) (hn n (by simp))
    rw [hfirst, List.append_assoc] at hrest
    exact hrest

theorem exists_components_below_eq (hn : ∀ n ∈ names, IsFileName n) (hne : names ≠ []) :
    ∃ cs n, (p.below names).components = cs ++ [.name n] ∧ n ≠ [] := by
  obtain ⟨init, last, rfl⟩ : ∃ init last, names = init ++ [last] :=
    ⟨_, _, (List.dropLast_concat_getLast hne).symm⟩
  refine ⟨p.components ++ init.map .name, last, ?_, (hn last (by simp)).nonempty⟩
  rw [components_below hn, List.map_append, List.append_assoc]
  rfl

theorem below_injective (hf : ∀ n ∈ front, IsFileName n) (hr : ∀ n ∈ rest, IsFileName n)
    (h : p.below front = p.below rest) : front = rest := by
  have hc := congrArg components h
  rw [components_below hf, components_below hr, List.append_cancel_left_eq] at hc
  exact (List.map_inj_right fun _ _ => Component.name.inj).1 hc

theorem eq_nil_of_below_eq (hf : ∀ n ∈ front, IsFileName n) (h : p.below front = p) : front = [] :=
  below_injective hf (by simp) (h : p.below front = p.below [])

theorem posix_append {cs : List Component} (hc : cs.filterMap Component.piece? ≠ []) (hne : names ≠ []) :
    posix (cs ++ names.map .name) = posix cs ++ '/' :: ['/'].intercalate (names.map Utf8.decodeLossy) := by
  have hpieces : (names.map Component.name).filterMap Component.piece? = names := by
    simp [List.filterMap_map, Function.comp_def, Component.piece?]
  have hhead : (cs ++ names.map Component.name).head? = cs.head? := by
    cases cs with
    | nil => simp at hc
    | cons c cs => rfl
  rw [posix, posix, hhead, List.filterMap_append, hpieces, List.map_append,
    Text.intercalate_append (by simpa using hc) (by simpa using hne), List.append_assoc]

theorem posix_ne_nil {cs : List Component} (hn : n ≠ []) : posix (cs ++ [.name n]) ≠ [] := by
  intro h
  by_cases hc : cs.filterMap Component.piece? = []
  · simp [posix, hc, Component.piece?, Utf8.decodeLossy_eq_nil_iff, hn] at h
  · have happend := posix_append hc (List.cons_ne_nil n [])
    rw [List.map_singleton] at happend
    simp [happend] at h

theorem behind?_eq_none_iff {start l : List Component} : behind? start l = none ↔ ¬ start <+: l := by
  rw [Option.eq_none_iff_forall_ne_some]
  constructor
  · intro h hp
    obtain ⟨rest, hr⟩ := hp
    exact h rest (behind?_eq_some_iff.2 hr.symm)
  · intro h rest hs
    exact h ⟨rest, (behind?_eq_some_iff.1 hs).symm⟩

theorem relativeTo_outside (h : ¬ root.components <+: p.components) :
    relativeTo root p = posix p.components := by
  simp [relativeTo, behind?_eq_none_iff.2 h]

theorem relativeTo_above (h : p.components <+: root.components) (hne : p.components ≠ root.components) :
    relativeTo root p = posix p.components :=
  relativeTo_outside fun hp => hne (h.eq_of_length_le hp.length_le)

section
variable {cs : List Component} (hq : q.components = cs ++ [.name n])
  (h : ¬ q.components <+: root.components)
include hq h

/-- Where the root is not below a directory, the names of the directory and of all below it begin alike. -/
theorem exists_relativeTo_below : ∃ cs' : List Component, ∀ names, (∀ m ∈ names, IsFileName m) →
    relativeTo root (q.below names) = posix (cs' ++ [.name n] ++ names.map .name) := by
  by_cases hr : root.components <+: q.components
  · obtain ⟨more, hm⟩ := hr
    have hne : more ≠ [] := by
      rintro rfl
      rw [List.append_nil] at hm
      exact h (hm ▸ List.prefix_rfl)
    have hlast : more = more.dropLast ++ [.name n] := by
      have hl := congrArg List.getLast? (hm.trans hq)
      rw [List.getLast?_append, List.getLast?_concat, List.getLast?_eq_some_getLast hne, Option.some_or] at hl
      rw [← Option.some.inj hl, List.dropLast_concat_getLast]
    refine ⟨more.dropLast, fun names hn => ?_⟩
    have hb : behind? root.components (q.below names).components = some (more ++ names.map .name) := by
      rw [behind?_eq_some_iff, components_below hn, ← hm, List.append_assoc]
    rw [relativeTo, hb, ← hlast]
    obtain ⟨c, more, rfl⟩ := List.exists_cons_of_ne_nil hne
    rfl
  · refine ⟨cs, fun names hn => ?_⟩
    have hb : behind? root.components (q.below names).components = none := by
      rw [behind?_eq_none_iff, components_below hn]
      intro hp
      rcases List.prefix_or_prefix_of_prefix hp (List.prefix_append _ _) with hp | hp
      · exact hr hp
      · exact h hp
    rw [relativeTo, hb, components_below hn, hq]

theorem relativeTo_ne_nil (hn : n ≠ []) : relativeTo root q ≠ [] := by
  obtain ⟨cs', hcs⟩ := exists_relativeTo_below hq h
  have hself : relativeTo root q = posix (cs' ++ [.name n]) := by simpa [below] using hcs [] (by simp)
  rw [hself]
  exact posix_ne_nil hn

/-- The name of a path below a directory goes on from the name of the directory, where the root is not
below the directory. -/
theorem relativeTo_below (hn : ∀ m ∈ names, IsFileName m) (hne : names ≠ []) :
    relativeTo root (q.below names) = relativeTo root q ++ '/' :: ['/'].intercalate (names.map Utf8.decodeLossy) := by
  obtain ⟨cs', hcs⟩ := exists_relativeTo_below hq h
  have hself : relativeTo root q = posix (cs' ++ [.name n]) := by simpa [below] using hcs [] (by simp)
  rw [hcs names hn, hself]
  exact posix_append (by simp [Component.piece?]) hne

end

theorem relativeTo_below_outside {cs : List Component} (hq : q.components = cs ++ [.name n])
    (h : ¬ root.components <+: (q.below names).components) (hn : ∀ m ∈ names, IsFileName m)
    (hne : names ≠ []) :
    relativeTo root (q.below names) = relativeTo root q ++ '/' :: ['/'].intercalate (names.map Utf8.decodeLossy) := by
  have hbelow : (q.below names).components = q.components ++ names.map .name := components_below hn
  have hout : ¬ root.components <+: q.components := by
    intro hr
    rw [hbelow] at h
    exact h (hr.trans (List.prefix_append _ _))
  rw [relativeTo_outside h, relativeTo_outside hout, hbelow, hq]
  exact posix_append (by simp [Component.piece?]) hne

end Folio.Path
