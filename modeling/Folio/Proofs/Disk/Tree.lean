import Folio.Disk.Basic
import Folio.Path.Relative
import Folio.Proofs.Text.Utf8

/-!
# Places in a tree

The absolute path of a place leads to the place, and one place below another is named by the names between
them.
-/
namespace Folio

namespace Node
variable {top : Node} {here way : Place} {es : List (Bytes × Node)}

theorem any_isDirectory_iff : (top.at? here).any isDirectory = true ↔
    ∃ es, top.at? here = some (.directory es) := by
  rw [Option.any_eq_true]
  constructor
  · rintro ⟨n, hn, hd⟩
    cases n with
    | directory es => exact ⟨es, hn⟩
    | _ => cases hd
  · rintro ⟨es, hes⟩
    exact ⟨_, hes, rfl⟩

theorem exists_directory_above (h : top.at? (here ++ way) = some (.directory es)) :
    ∃ inner, top.at? here = some (.directory inner) := by
  rw [at?_append] at h
  obtain ⟨m, hm, hway⟩ := Option.bind_eq_some_iff.1 h
  cases way with
  | nil =>
    cases hway
    exact ⟨es, hm⟩
  | cons name way =>
    obtain ⟨inner, _, rfl, -, -⟩ := at?_cons_eq_some hway
    exact ⟨inner, hm⟩

end Node

namespace Disk
open Folio.Path (slash dot)
variable {disk : Disk} {top n : Node} {place here below : Place} {name : Bytes} {last : Bool}

theorem splitOn_intercalate_place (hp : ∀ n ∈ place, IsFileName n) (hne : place ≠ []) :
    ([slash].intercalate place).splitOn slash = place :=
  List.splitOn_intercalate slash (fun n hn => (hp n hn).no_slash) hne

theorem IsFileName.ofPiece (hn : IsFileName name) : Step.ofPiece name = .into name := by
  rw [Step.ofPiece, if_neg (not_or.2 ⟨hn.nonempty, hn.not_dot⟩), if_neg hn.not_dots]

theorem steps_pathOf (hp : ∀ n ∈ place, IsFileName n) :
    steps (pathOf place).bytes = .stay :: if place = [] then [.stay] else place.map .into := by
  have hs : (pathOf place).bytes.splitOn slash = [] :: ([slash].intercalate place).splitOn slash := by
    simp [pathOf, List.splitOn_cons_eq_if_modifyHead]
  rw [steps, hs]
  by_cases hne : place = []
  · subst hne
    rfl
  · rw [splitOn_intercalate_place hp hne, if_neg hne, List.map_cons]
    congr 1
    exact List.map_congr_left fun n hn => (hp n hn).ofPiece

/-- Names of a tree are followed one by one; a link at their end stays unless it is to be followed. -/
theorem follow_names (hs : top.Sound) (links : Nat) (h : top.at? (here ++ below) = some n)
    (hl : ∀ target, n = .link target → last = false) :
    follow top last links here (below.map .into) = .ok (here ++ below) := by
  induction below generalizing here with
  | nil => simp [follow]
  | cons name rest ih =>
    have hat := h
    rw [Node.at?_append] at h
    obtain ⟨m, hm, hr⟩ := Option.bind_eq_some_iff.1 h
    obtain ⟨es, c, rfl, hc, hrest⟩ := Node.at?_cons_eq_some hr
    have hname : IsFileName name := hs.isFileName_of_mem hat (by simp)
    have hbelow : top.at? ((here ++ [name]) ++ rest) = some n := by simpa using hat
    have hnext := ih hbelow
    rw [List.append_assoc, List.singleton_append] at hnext
    rw [List.map_cons, follow, hm]
    simp only [Nat.not_lt.2 hname.size, if_false, hc]
    cases c with
    | link target =>
      cases rest with
      | nil =>
        have hlast := hl target (Option.some.inj hrest).symm
        simp [hlast]
      | cons k rest => simp [Node.at?, Node.child?, Node.entries] at hrest
    | file content modified => exact hnext
    | directory es' => exact hnext

theorem pathOf_text_no_nul (hp : ∀ n ∈ place, IsFileName n) : 0 ∉ (pathOf place).bytes := by
  have hj : 0 ∉ [slash].intercalate place := by
    induction place with
    | nil => simp
    | cons n rest ih =>
      have hn := (hp n (by simp)).no_nul
      by_cases hr : rest = []
      · simpa [hr] using hn
      · rw [Text.intercalate_cons hr]
        simp [hn, ih fun m hm => hp m (by simp [hm])]
  simp [pathOf, hj]

theorem resolve_pathOf (h : disk.top.at? place = some n)
    (hd : place = [] → n.isDirectory = true) (hl : ∀ target, n = .link target → last = false) :
    disk.resolve last (pathOf place) = .ok place := by
  have hp : ∀ m ∈ place, IsFileName m := fun m hm => disk.sound.isFileName_of_mem h hm
  have hnul : (pathOf place).bytes.contains 0 = false := by
    simpa using pathOf_text_no_nul hp
  have hstart : startOf disk.current (pathOf place).bytes = [] := by simp [startOf, pathOf]
  have htop : ∃ es, disk.top = .directory es := by
    cases place with
    | nil =>
      cases Option.some.inj h
      cases ht : disk.top with
      | directory es => exact ⟨es, rfl⟩
      | _ => simp [ht, Node.isDirectory] at hd
    | cons name rest =>
      obtain ⟨es, _, ht, _⟩ := Node.at?_cons_eq_some h
      exact ⟨es, ht⟩
  obtain ⟨es, ht⟩ := htop
  have hstay : ∀ rest, follow disk.top last maxLinks [] (.stay :: rest) =
      follow disk.top last maxLinks [] rest := by
    intro rest
    rw [follow, Node.at?, ht]
  rw [resolve, if_neg (by simp [pathOf]), hnul, hstart, steps_pathOf hp, if_neg (by simp), hstay]
  split
  next he =>
    rw [hstay, he, follow]
  next => exact follow_names disk.sound maxLinks h hl

theorem find_pathOf (h : disk.top.at? place = some n)
    (hd : place = [] → n.isDirectory = true) (hl : ∀ target, n = .link target → last = false) :
    disk.find last (pathOf place) = .ok (place, n) := by
  rw [find, resolve_pathOf h hd hl]
  simp [bind, Except.bind, h]

theorem isDirectory_pathOf {es : List (Bytes × Node)}
    (h : disk.top.at? place = some (.directory es)) : disk.isDirectory (pathOf place) = true := by
  rw [isDirectory, find_pathOf h (fun _ => rfl) (by simp)]

theorem canonical_pathOf {es : List (Bytes × Node)}
    (h : disk.top.at? place = some (.directory es)) : disk.canonical (pathOf place) = .ok (pathOf place) := by
  rw [canonical, resolve_pathOf h (fun _ => rfl) (by simp)]
  rfl

theorem exists_find_of_isDirectory {path : Path} (h : disk.isDirectory path = true) :
    ∃ place es, disk.find true path = .ok (place, .directory es) := by
  unfold isDirectory at h
  split at h
  next place es hfind => exact ⟨place, es, hfind⟩
  next => cases h

theorem isFile_eq_false_of_isDirectory {path : Path} (h : disk.isDirectory path = true) :
    disk.isFile path = false := by
  obtain ⟨place, es, hfind⟩ := exists_find_of_isDirectory h
  rw [isFile, hfind]

theorem join_pathOf_pieces (hp : ∀ n ∈ place, n ≠ [] ∧ slash ∉ n) (hhead : name.head? ≠ some slash) :
    (pathOf place).join name = pathOf (place ++ [name]) := by
  rw [Path.join, if_neg hhead]
  by_cases hne : place = []
  · subst hne
    simp [pathOf]
  · have hempty : [] ∉ place := fun hm => (hp [] hm).1 rfl
    have hjoin : [slash].intercalate place ≠ [] := fun he =>
      hne ((Text.intercalate_eq_nil_iff hempty).1 he)
    have hlast : (pathOf place).bytes.getLast? ≠ some slash := by
      obtain ⟨c, rest, hc⟩ := List.exists_cons_of_ne_nil hjoin
      have hl := Text.getLast?_intercalate_ne (fun n hm => (hp n hm).2) hempty
      rw [pathOf, hc, List.getLast?_cons_cons, ← hc]
      exact hl
    have hcond : ¬((pathOf place).bytes = [] ∨ (pathOf place).bytes.getLast? = some slash) := by
      intro h
      rcases h with h | h
      · simp [pathOf] at h
      · exact hlast h
    rw [if_neg hcond, pathOf, pathOf, Text.intercalate_append hne (by simp)]
    simp

theorem join_pathOf (hp : ∀ n ∈ place, IsFileName n) (hn : IsFileName name) :
    (pathOf place).join name = pathOf (place ++ [name]) :=
  join_pathOf_pieces (fun n hm => ⟨(hp n hm).nonempty, (hp n hm).no_slash⟩) fun h =>
    hn.no_slash (List.mem_of_mem_head? h)

theorem at?_dropLast (h : top.at? here = some n) (hd : n.isDirectory = true) :
    ∃ m, top.at? here.dropLast = some m ∧ m.isDirectory = true := by
  by_cases hne : here = []
  · subst hne
    exact ⟨n, h, hd⟩
  · rw [← List.dropLast_concat_getLast hne, Node.at?_append] at h
    obtain ⟨m, hm, hc⟩ := Option.bind_eq_some_iff.1 h
    obtain ⟨es, _, rfl, _, _⟩ := Node.at?_cons_eq_some hc
    exact ⟨_, hm, rfl⟩

theorem steps_ne_nil (t : Bytes) : steps t ≠ [] := by simp [steps]

/-- Following a path to its end leads to a file or a directory. -/
theorem at?_of_follow {links : Nat} {steps : List Step} (h : follow top true links here steps = .ok place)
    (hstart : steps = [] → ∃ m, top.at? here = some m ∧ ∀ target, m ≠ .link target) :
    ∃ m, top.at? place = some m ∧ ∀ target, m ≠ .link target := by
  fun_induction follow top true links here steps with
  | case1 =>
    cases h
    exact hstart rfl
  | case2 _ here _ es hhere ih => exact ih h fun _ => ⟨_, hhere, by simp⟩
  | case3 _ here _ es hhere ih =>
    refine ih h fun _ => ?_
    obtain ⟨m, hm, hd⟩ := at?_dropLast hhere rfl
    exact ⟨m, hm, by rintro _ rfl; simp [Node.isDirectory] at hd⟩
  | case6 _ _ _ _ _ _ _ _ _ hlast => simp at hlast
  | case8 _ _ _ _ _ _ target _ _ _ ih => exact ih h fun he => absurd he (by simp [steps_ne_nil])
  | case9 _ here _ es hhere name _ m hm hl ih =>
    refine ih h fun _ => ⟨m, ?_, hm⟩
    rw [Node.at?_append, hhere, Option.bind_some, Node.at?_directory_cons, hl]
    rfl
  | case4 | case5 | case7 | case10 => cases h

/-- A canonical path is the path of a place that a file or a directory stands at. -/
theorem canonical_eq {start path : Path} (h : disk.canonical start = .ok path) :
    ∃ place m, path = pathOf place ∧ disk.top.at? place = some m ∧ ∀ target, m ≠ .link target := by
  unfold canonical resolve at h
  split at h
  · cases h
  · split at h
    · cases h
    · cases hf : follow disk.top true maxLinks (startOf disk.current start.bytes) (steps start.bytes) with
      | error fault =>
        rw [hf] at h
        cases h
      | ok place =>
        rw [hf] at h
        cases h
        obtain ⟨m, hm, hl⟩ := at?_of_follow hf fun he => absurd he (steps_ne_nil _)
        exact ⟨place, m, rfl, hm, hl⟩

/-- A canonical directory is a directory that its own names lead to. -/
theorem canonical_directory {start root : Path}
    (hc : disk.canonical start = .ok root) (hd : disk.isDirectory root = true) :
    ∃ place es, root = pathOf place ∧ disk.top.at? place = some (.directory es) := by
  obtain ⟨place, m, rfl, hm, hl⟩ := canonical_eq hc
  cases m with
  | directory es => exact ⟨place, es, rfl, hm⟩
  | link target => exact absurd rfl (hl target)
  | file content modified =>
    by_cases hne : place = []
    · subst hne
      have htop : disk.top = .file content modified := Option.some.inj hm
      have hsteps : steps (pathOf []).bytes = [.stay, .stay] := steps_pathOf (by simp)
      have hfind : disk.find true (pathOf []) = .error .notDirectory := by
        rw [find, resolve, if_neg (by simp [pathOf]), if_neg (by simp [pathOf]), hsteps, follow]
        simp [startOf, pathOf, Node.at?, htop, bind, Except.bind]
      simp [isDirectory, hfind] at hd
    · rw [isDirectory, find_pathOf hm (fun he => absurd he hne) (by simp)] at hd
      simp at hd

end Disk

namespace Path
open Disk
variable {place root below : Place}

theorem ofPiece?_name {n : Bytes} (hn : IsFileName n) : Component.ofPiece? n = some (.name n) := by
  rw [Component.ofPiece?, if_neg (not_or.2 ⟨hn.nonempty, hn.not_dot⟩), if_neg hn.not_dots]

theorem filterMap_ofPiece (hp : ∀ n ∈ place, IsFileName n) :
    place.filterMap Component.ofPiece? = place.map .name := by
  induction place with
  | nil => rfl
  | cons n rest ih =>
    rw [List.filterMap_cons, ofPiece?_name (hp n (by simp)), ih fun m hm => hp m (by simp [hm])]
    rfl

theorem components_pathOf (hp : ∀ n ∈ place, IsFileName n) :
    (pathOf place).components = .root :: place.map .name := by
  have hs : (pathOf place).bytes.splitOn slash = [] :: ([slash].intercalate place).splitOn slash := by
    simp [pathOf, List.splitOn_cons_eq_if_modifyHead]
  rw [components, if_pos (by simp [isAbsolute, pathOf]), hs]
  by_cases hne : place = []
  · subst hne
    rfl
  · rw [splitOn_intercalate_place hp hne, List.filterMap_cons, filterMap_ofPiece hp]
    rfl

theorem pathOf_injective {p q : Place} (hp : ∀ n ∈ p, IsFileName n) (hq : ∀ n ∈ q, IsFileName n)
    (h : pathOf p = pathOf q) : p = q := by
  have hc := congrArg components h
  rw [components_pathOf hp, components_pathOf hq, List.cons.injEq] at hc
  exact (List.map_inj_right fun _ _ => Component.name.inj).1 hc.2

def nameBelow (below : Place) : Text :=
  if below = [] then rootName else ['/'].intercalate (below.map Utf8.decodeLossy)

theorem relativeTo_eq_nameBelow {p q : Path} (h : q.components = p.components ++ below.map .name) :
    relativeTo p q = nameBelow below := by
  rw [relativeTo, h, behind?_append, nameBelow]
  cases below with
  | nil => rfl
  | cons n rest =>
    have hpieces : ((n :: rest).map Component.name).filterMap Component.piece? = n :: rest := by
      simp [List.filterMap_map, Function.comp_def, Component.piece?]
    rw [if_neg (by simp)]
    show posix ((n :: rest).map Component.name) = _
    rw [posix, hpieces]
    simp

theorem relativeTo_pathOf (hr : ∀ n ∈ root, IsFileName n) (hb : ∀ n ∈ below, IsFileName n) :
    relativeTo (pathOf root) (pathOf (root ++ below)) = nameBelow below := by
  have hall : ∀ n ∈ root ++ below, IsFileName n := by
    intro n hn
    exact (List.mem_append.1 hn).elim (hr n) (hb n)
  apply relativeTo_eq_nameBelow
  rw [components_pathOf hr, components_pathOf hall, List.map_append, ← List.cons_append]

end Path
end Folio
