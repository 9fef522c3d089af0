import Folio.Path.Relative
import Folio.Proofs.Path.Written

/-!
# Names of paths

A name shows what is below the root, or the whole path outside of it. What is no text is lost in it: a name
leads from the root back to its path if nothing was lost, and paths of one name are shown alike.
-/
namespace Folio
variable {c : Component} {cs : List Component}

namespace Component
open Folio.Path (slash dot)

def IsText : Component → Prop
  | .name n => Utf8.IsText n
  | _ => True

instance : DecidablePred IsText
  | .name n => inferInstanceAs (Decidable (Utf8.IsText n))
  | .root | .here | .up => inferInstanceAs (Decidable True)

/-- The component that is read back from what is shown of a component. -/
def reread : Component → Component
  | .name n => .name (Utf8.encode (Utf8.decodeLossy n))
  | c => c

theorem reread_eq_self_iff : c.reread = c ↔ c.IsText := by
  cases c with
  | name n => simp [reread, IsText, Utf8.isText_iff]
  | _ => simp [reread, IsText]

theorem map_reread_eq_self_iff : cs.map reread = cs ↔ ∀ c ∈ cs, c.IsText := by
  induction cs with
  | nil => simp
  | cons c cs ih => simp [reread_eq_self_iff, ih]

theorem piece?_reread : c.reread.piece? = c.piece?.map fun n => Utf8.encode (Utf8.decodeLossy n) := by
  cases c with
  | up => exact congrArg some (by decide)
  | _ => rfl

theorem ofPiece?_eq_name_iff {n : Bytes} :
    ofPiece? n = some (.name n) ↔ n ≠ [] ∧ n ≠ [dot] ∧ n ≠ [dot, dot] := by
  unfold ofPiece?
  split
  next h => rcases h with h | h <;> simp [h]
  next h =>
    rw [not_or] at h
    split
    next hd => simp [hd]
    next hd => simp [h, hd]

theorem IsWritten.reread (h : c.IsWritten) : c.reread.IsWritten := by
  obtain ⟨piece, hslash, hc⟩ := h
  cases c with
  | name n =>
    obtain rfl : n = piece := Option.some.inj (piece?_of_ofPiece? hc)
    refine ⟨Utf8.encode (Utf8.decodeLossy n), ?_, ?_⟩
    · rwa [Utf8.mem_encode_iff (by decide), Utf8.mem_decodeLossy_iff (by decide)]
    · -- what has no replacement in it is read from its own bytes only
      have hsame : ∀ t : Text, Utf8.replacement ∉ t →
          (Utf8.encode (Utf8.decodeLossy n) = Utf8.encode t ↔ n = Utf8.encode t) :=
        fun t ht => by rw [Utf8.encode_inj, Utf8.decodeLossy_eq_iff ht]
      have hnil := hsame [] (by simp)
      have hdot := hsame ['.'] (by decide)
      have hdots := hsame ['.', '.'] (by decide)
      rw [Component.reread, ofPiece?_eq_name_iff, Ne, Ne, Ne]
      rw [ofPiece?_eq_name_iff] at hc
      exact ⟨hnil.not.2 hc.1, hdot.not.2 hc.2.1, hdots.not.2 hc.2.2⟩
  | _ => exact ⟨piece, hslash, hc⟩

end Component

namespace Path
open Disk Component
variable {p q root : Path} {n : Bytes} {names more : List Bytes}

theorem filterMap_map_reread (cs : List Component) : (cs.map reread).filterMap piece? =
    ((cs.filterMap piece?).map Utf8.decodeLossy).map Utf8.encode := by
  rw [List.filterMap_map, List.map_map, List.map_filterMap]
  exact List.filterMap_congr fun c _ => piece?_reread

theorem decodeLossy_written (cs : List Component) : Utf8.decodeLossy (written cs) = posix cs := by
  have hnames := Utf8.decodeLossy_intercalate (b := slash) (by decide) (cs.filterMap piece?)
  rw [written, posix]
  split
  · have hroot := Utf8.decodeLossy_append (b := slash) (by decide) []
      ([slash].intercalate (cs.filterMap piece?))
    rw [List.nil_append] at hroot
    rw [List.singleton_append, hroot, hnames]
    rfl
  · exact hnames

theorem encode_posix (cs : List Component) : Utf8.encode (posix cs) = written (cs.map reread) := by
  have hnames := Utf8.encode_intercalate (b := slash) (by decide)
    ((cs.filterMap piece?).map Utf8.decodeLossy)
  have hhead : (cs.map reread).head? = some .root ↔ cs.head? = some .root := by
    cases cs with
    | nil => simp
    | cons c cs => cases c <;> simp [reread]
  rw [posix, written, Utf8.encode_append, filterMap_map_reread, ← hnames]
  simp only [hhead]
  split <;> rfl

theorem posix_map_reread (cs : List Component) : posix (cs.map reread) = posix cs := by
  rw [← decodeLossy_written, ← encode_posix, Utf8.decodeLossy_encode]

theorem IsPlain.shown_eq (hp : p.IsPlain) : p.shown = posix p.components := by
  rw [shown, ← decodeLossy_written, ← hp.bytes_eq]

theorem isWritten_map_reread (h : ∀ c ∈ cs, c.IsWritten) : ∀ c ∈ cs.map reread, c.IsWritten := by
  intro c hc
  obtain ⟨d, hd, rfl⟩ := List.mem_map.1 hc
  exact (h d hd).reread

/-- The components that the name of a path shows; the root itself shows none. -/
def named (root p : Path) : List Component :=
  (behind? root.components p.components).getD p.components

section
variable (hroot : root.isAbsolute = true) (hp : p.isAbsolute = true)
include hroot hp

theorem isWritten_below {below : List Component} (h : p.components = root.components ++ below) :
    ∀ c ∈ below, c.IsWritten := by
  obtain ⟨first, hfirst, -⟩ := isRooted_components hroot
  obtain ⟨cs, hcs, hw⟩ := isRooted_components hp
  intro c hc
  rw [hcs, hfirst, List.cons_append] at h
  rw [List.tail_eq_of_cons_eq h] at hw
  exact hw c (List.mem_append_right first hc)

/-- Joined to the root, a name leads to what is read back of the components that it shows. -/
theorem components_join_relativeTo : (root.join (Utf8.encode (relativeTo root p))).components =
    if root.components <+: p.components then root.components ++ (named root p).map reread
    else (named root p).map reread := by
  have hne : root.bytes ≠ [] := by
    obtain ⟨t, rfl⟩ := exists_eq_slash hroot
    simp
  rw [relativeTo, named]
  cases hb : behind? root.components p.components with
  | none =>
    -- outside of the root the name is an absolute path by itself
    obtain ⟨cs, hcs, hw⟩ := isRooted_components hp
    have hroot' : (Component.root :: cs).map reread = .root :: cs.map reread := rfl
    have hwritten := components_written ⟨cs.map reread, rfl, isWritten_map_reread hw⟩
    rw [if_neg (behind?_eq_none_iff.1 hb)]
    dsimp only [Option.getD_none]
    rw [encode_posix, hcs, hroot', written_root, join_absolute, ← written_root, hwritten]
  | some below =>
    have hsplit : p.components = root.components ++ below := behind?_eq_some_iff.1 hb
    have hw := isWritten_map_reread (isWritten_below hroot hp hsplit)
    rw [if_pos ⟨below, hsplit.symm⟩]
    cases below with
    | nil =>
      have hdot : ((Utf8.encode rootName).splitOn slash).filterMap ofPiece? = [] := by decide
      dsimp only
      rw [components_join_bytes hne (by decide), hdot]
      rfl
    | cons c below =>
      dsimp only [Option.getD_some]
      rw [encode_posix, components_join_written hne hw]

/-- A name leads from the root back to its path exactly if it shows nothing but text. -/
theorem components_join_relativeTo_iff :
    (root.join (Utf8.encode (relativeTo root p))).components = p.components ↔
      ∀ c ∈ named root p, c.IsText := by
  rw [components_join_relativeTo hroot hp, ← map_reread_eq_self_iff]
  cases hb : behind? root.components p.components with
  | none =>
    rw [if_neg (behind?_eq_none_iff.1 hb), named, hb]
    rfl
  | some below =>
    have hsplit : p.components = root.components ++ below := behind?_eq_some_iff.1 hb
    rw [if_pos ⟨below, hsplit.symm⟩, named, hb, hsplit, Option.getD_some, List.append_cancel_left_eq]

end

theorem components_eq_append_named (h : root.components <+: p.components) :
    p.components = root.components ++ named root p := by
  obtain ⟨below, hb⟩ := h
  rw [named, behind?_eq_some_iff.2 hb.symm, Option.getD_some, hb]

theorem named_outside (h : ¬ root.components <+: p.components) : named root p = p.components := by
  rw [named, behind?_eq_none_iff.2 h, Option.getD_none]

theorem head?_posix_ne (h : ∀ c ∈ cs, c.IsWritten) : (posix cs).head? ≠ some '/' := by
  intro hh
  obtain ⟨t, ht⟩ := List.head?_eq_some_iff.1 hh
  have hwritten := head?_written (isWritten_map_reread h)
  rw [← encode_posix, ht] at hwritten
  exact hwritten rfl

/-- The names of what is outside of the root begin with a slash, and no others do. -/
theorem head?_relativeTo_iff (hroot : root.isAbsolute = true) (hp : p.isAbsolute = true) :
    (relativeTo root p).head? = some '/' ↔ ¬ root.components <+: p.components := by
  constructor
  · intro hh hprefix
    obtain ⟨below, hbelow⟩ := hprefix
    rw [relativeTo, behind?_eq_some_iff.2 hbelow.symm] at hh
    cases below with
    | nil => cases hh
    | cons c below => exact head?_posix_ne (isWritten_below hroot hp hbelow.symm) hh
  · intro h
    obtain ⟨cs, hcs, -⟩ := isRooted_components hp
    rw [relativeTo_outside h, hcs]
    rfl

/-- Paths of one name are shown alike. -/
theorem posix_components_eq_of_relativeTo_eq (hroot : root.isAbsolute = true) (hp : p.isAbsolute = true)
    (hq : q.isAbsolute = true) (h : relativeTo root p = relativeTo root q) :
    posix p.components = posix q.components := by
  have hsame : root.components <+: p.components ↔ root.components <+: q.components := by
    rw [← not_iff_not, ← head?_relativeTo_iff hroot hp, h, head?_relativeTo_iff hroot hq]
  have hjoin := components_join_relativeTo hroot hp
  rw [h, components_join_relativeTo hroot hq] at hjoin
  rw [← posix_map_reread, ← posix_map_reread q.components]
  by_cases hr : root.components <+: p.components
  · rw [if_pos hr, if_pos (hsame.1 hr), List.append_cancel_left_eq] at hjoin
    rw [components_eq_append_named hr, components_eq_append_named (hsame.1 hr), List.map_append, ← hjoin,
      List.map_append]
  · have hr' := mt hsame.2 hr
    rw [if_neg hr, if_neg hr', named_outside hr, named_outside hr'] at hjoin
    rw [hjoin]

/-- Below the root, names that are the same were made of names that are shown alike. -/
theorem map_decodeLossy_eq_of_relativeTo_eq (hroot : root.isAbsolute = true)
    (hn : ∀ n ∈ names, IsFileName n) (hm : ∀ n ∈ more, IsFileName n)
    (h : relativeTo root (root.below names) = relativeTo root (root.below more)) :
    names.map Utf8.decodeLossy = more.map Utf8.decodeLossy := by
  have hjoin : ∀ names, (∀ n ∈ names, IsFileName n) →
      (root.join (Utf8.encode (relativeTo root (root.below names)))).components =
        root.components ++ (names.map Utf8.decodeLossy).map fun t => .name (Utf8.encode t) := by
    intro names hn
    have hbelow := components_below (p := root) hn
    have hprefix : root.components <+: (root.below names).components := ⟨_, hbelow.symm⟩
    rw [components_join_relativeTo hroot (isAbsolute_below hroot names), if_pos hprefix]
    have hnamed := components_eq_append_named hprefix
    rw [hbelow, List.append_cancel_left_eq] at hnamed
    rw [← hnamed, List.map_map, List.map_map]
    rfl
  have hsame := hjoin names hn
  rw [h, hjoin more hm, List.append_cancel_left_eq, eq_comm] at hsame
  exact (List.map_inj_right fun _ _ he => Utf8.encode_inj.1 (Component.name.inj he)).1 hsame

/-! ### Paths below a path -/

/-- The slash that stands between a path and a name joined to it, unless it is there already. -/
def seam (p : Path) : Bytes :=
  if p.bytes = [] ∨ p.bytes.getLast? = some slash then [] else [slash]

theorem bytes_join (hn : IsFileName n) : (p.join n).bytes = p.bytes ++ p.seam ++ n := by
  rw [join, if_neg fun h => hn.no_slash (List.mem_of_head? h), seam]
  split <;> simp

theorem seam_join (hn : IsFileName n) : (p.join n).seam = [slash] := by
  have hlast : (p.join n).bytes.getLast? = n.getLast? := by
    obtain ⟨b, t, ht⟩ := List.exists_cons_of_ne_nil hn.nonempty
    rw [bytes_join hn, List.getLast?_append, ht, List.getLast?_cons, Option.some_or]
  have hempty : (p.join n).bytes ≠ [] := by
    rw [bytes_join hn]
    exact List.append_ne_nil_of_right_ne_nil _ hn.nonempty
  rw [seam, if_neg (not_or.2 ⟨hempty, fun h => ?_⟩)]
  exact hn.no_slash (List.mem_of_getLast? (hlast ▸ h))

theorem bytes_below (hn : ∀ n ∈ names, IsFileName n) (hne : names ≠ []) :
    (p.below names).bytes = p.bytes ++ p.seam ++ [slash].intercalate names := by
  induction names generalizing p with
  | nil => exact absurd rfl hne
  | cons n names ih =>
    have hname := hn n List.mem_cons_self
    have hcons : p.below (n :: names) = (p.join n).below names := rfl
    by_cases hnames : names = []
    · subst hnames
      simpa [below] using bytes_join hname
    · rw [hcons, ih (fun m hm => hn m (List.mem_cons_of_mem n hm)) hnames, bytes_join hname, seam_join hname,
        Text.intercalate_cons hnames]
      simp

theorem decodeLossy_append_seam (p : Path) (rest : Bytes) :
    Utf8.decodeLossy (p.bytes ++ p.seam ++ rest) =
      p.shown ++ Utf8.decodeLossy p.seam ++ Utf8.decodeLossy rest := by
  have hslash : ∀ front more, Utf8.decodeLossy (front ++ slash :: more) =
      Utf8.decodeLossy front ++ '/' :: Utf8.decodeLossy more :=
    Utf8.decodeLossy_append (by decide)
  rw [seam, shown]
  split
  next h =>
    rcases h with h | h
    · rw [h]
      rfl
    · obtain ⟨front, hfront⟩ := List.getLast?_eq_some_iff.1 h
      have hend := hslash front []
      rw [hfront, List.append_nil, List.append_assoc, List.singleton_append, hslash, hend]
      simp [Utf8.decodeLossy, Utf8.scan]
  next =>
    rw [List.append_assoc, List.singleton_append, hslash]
    have hone : Utf8.decodeLossy [slash] = ['/'] := by decide
    simp [hone]

theorem shown_below (hn : ∀ n ∈ names, IsFileName n) (hne : names ≠ []) : (p.below names).shown =
    p.shown ++ Utf8.decodeLossy p.seam ++ ['/'].intercalate (names.map Utf8.decodeLossy) := by
  rw [shown, bytes_below hn hne, decodeLossy_append_seam]
  exact congrArg _ (Utf8.decodeLossy_intercalate (b := slash) (by decide) names)

theorem shown_pathOf (place : Place) :
    (pathOf place).shown = '/' :: ['/'].intercalate (place.map Utf8.decodeLossy) := by
  have hslash := Utf8.decodeLossy_append (b := slash) (by decide) [] ([slash].intercalate place)
  have hnames := Utf8.decodeLossy_intercalate (b := slash) (by decide) place
  rw [hnames] at hslash
  exact hslash

theorem slash_notMem_decodeLossy (hn : IsFileName n) : '/' ∉ Utf8.decodeLossy n := fun h =>
  hn.no_slash (Utf8.mem_of_mem_decodeLossy (b := slash) (by decide) h)

theorem splitOn_intercalate_shown (hn : ∀ n ∈ names, IsFileName n) (hne : names ≠ []) :
    (['/'].intercalate (names.map Utf8.decodeLossy)).splitOn '/' = names.map Utf8.decodeLossy := by
  refine List.splitOn_intercalate '/' (fun t ht => ?_) (by simpa using hne)
  obtain ⟨n, hmem, rfl⟩ := List.mem_map.1 ht
  exact slash_notMem_decodeLossy (hn n hmem)

theorem intercalate_shown_ne_nil (hn : ∀ n ∈ names, IsFileName n) (hne : names ≠ []) :
    ['/'].intercalate (names.map Utf8.decodeLossy) ≠ [] := by
  intro h
  have hmap : names.map Utf8.decodeLossy = [] := by
    refine (Text.intercalate_eq_nil_iff fun hm => ?_).1 h
    obtain ⟨n, hmem, hnil⟩ := List.mem_map.1 hm
    exact (hn n hmem).nonempty (Utf8.decodeLossy_eq_nil_iff.1 hnil)
  exact hne (List.map_eq_nil_iff.1 hmap)

theorem map_decodeLossy_eq_of_intercalate_eq (hn : ∀ n ∈ names, IsFileName n) (hm : ∀ n ∈ more, IsFileName n)
    (h : ['/'].intercalate (names.map Utf8.decodeLossy) = ['/'].intercalate (more.map Utf8.decodeLossy)) :
    names.map Utf8.decodeLossy = more.map Utf8.decodeLossy := by
  by_cases hnames : names = []
  · subst hnames
    by_cases hmore : more = []
    · rw [hmore]
    · exact absurd h.symm (intercalate_shown_ne_nil hm hmore)
  · by_cases hmore : more = []
    · subst hmore
      exact absurd h (intercalate_shown_ne_nil hn hnames)
    · rw [← splitOn_intercalate_shown hn hnames, h, splitOn_intercalate_shown hm hmore]

/-- Paths below a path are shown alike exactly if the names that lead to them are. -/
theorem shown_below_eq_iff (hn : ∀ n ∈ names, IsFileName n) (hm : ∀ n ∈ more, IsFileName n) :
    (p.below names).shown = (p.below more).shown ↔
      names.map Utf8.decodeLossy = more.map Utf8.decodeLossy := by
  -- the path itself is shown shorter than all that is below it
  have hshort : ∀ names, (∀ n ∈ names, IsFileName n) → (p.below names).shown = p.shown → names = [] := by
    intro names hn h
    by_contra hne
    rw [shown_below hn hne, List.append_assoc, List.append_right_eq_self, List.append_eq_nil_iff] at h
    exact intercalate_shown_ne_nil hn hne h.2
  by_cases hnames : names = []
  · subst hnames
    constructor
    · exact fun h => by rw [hshort more hm h.symm]
    · intro h
      rw [List.map_eq_nil_iff.1 h.symm]
  · by_cases hmore : more = []
    · subst hmore
      constructor
      · exact fun h => by rw [hshort names hn h]
      · intro h
        rw [List.map_eq_nil_iff.1 h]
    · rw [shown_below hn hnames, shown_below hm hmore, List.append_cancel_left_eq]
      exact ⟨map_decodeLossy_eq_of_intercalate_eq hn hm, fun h => by rw [h]⟩

end Path
end Folio
