import Folio.Path.Clean
import Folio.Proofs.Disk.Step

/-!
# Paths inside a tree

A path that goes on from the path of a place leads to the same part of the tree there wherever the place is,
as long as it does not lead out of that tree.
-/
namespace Folio
namespace Disk
open Folio.Path (slash dot)
variable {disk : Disk} {loc here : Place} {tree : Node} {rest : Bytes} {last : Bool} {links : Nat}

def inside (loc : Place) (rest : Bytes) : Path := ⟨(pathOf loc).bytes ++ rest⟩

def stepsIn (rest : Bytes) : List Step := (steps rest).tail

/-- The place that the text behind a path spells, as seen from where the path leads. -/
def placeIn (rest : Bytes) : Place := (stepsIn rest).foldl Step.after []

def IsFresh (rest : Bytes) : Prop := rest = [] ∨ ∃ more, rest = slash :: more

/-- The text goes on from the path of a place and does not lead out of the tree there. -/
structure IsInside (rest : Bytes) : Prop where
  fresh : IsFresh rest
  stays : StaysIn [] (stepsIn rest)

theorem eq_of_ofPiece_stay {piece : Bytes} (h : Step.ofPiece piece = .stay) : piece = [] ∨ piece = [dot] := by
  unfold Step.ofPiece at h
  split at h
  next hp => exact hp
  next => split at h <;> cases h

theorem eq_of_ofPiece_up {piece : Bytes} (h : Step.ofPiece piece = .up) : piece = [dot, dot] := by
  unfold Step.ofPiece at h
  split at h
  · cases h
  · split at h
    next hp => exact hp
    next => cases h

theorem eq_of_ofPiece_into {piece name : Bytes} (h : Step.ofPiece piece = .into name) : piece = name := by
  unfold Step.ofPiece at h
  split at h
  · cases h
  · split at h <;> cases h
    rfl

theorem steps_append (t u : Bytes) : steps (t ++ slash :: u) = steps t ++ steps u := by
  simp [steps, List.splitOn_append_cons_self]

theorem stepsIn_slash (t : Bytes) : stepsIn (slash :: t) = steps t := by
  have h := steps_append [] t
  rw [List.nil_append] at h
  rw [stepsIn, h]
  rfl

/-- A directory tree without links stands at a place below the top of the disk. -/
structure Hosts (disk : Disk) (loc : Place) (tree : Node) : Prop where
  at?_eq : disk.top.at? loc = some tree
  isDirectory : tree.isDirectory = true
  linkFree : tree.LinkFree
  ne_nil : loc ≠ []

theorem Hosts.at?_append (h : disk.Hosts loc tree) : disk.top.at? (loc ++ here) = tree.at? here := by
  rw [Node.at?_append, h.at?_eq, Option.bind_some]

theorem Hosts.sound (h : disk.Hosts loc tree) : tree.Sound := disk.sound.at h.at?_eq

theorem Hosts.isFileName (h : disk.Hosts loc tree) : ∀ n ∈ loc, IsFileName n :=
  fun _ hn => disk.sound.isFileName_of_mem h.at?_eq hn

theorem steps_append_fresh (hr : IsFresh rest) (t : Bytes) : steps (t ++ rest) = steps t ++ stepsIn rest := by
  obtain rfl | ⟨more, rfl⟩ := hr
  · simp [stepsIn, steps]
  · rw [steps_append, stepsIn_slash]

theorem Hosts.steps_inside (h : disk.Hosts loc tree) (hr : IsFresh rest) :
    steps (inside loc rest).bytes = .stay :: (loc.map .into ++ stepsIn rest) := by
  have hloc := steps_pathOf h.isFileName
  rw [if_neg h.ne_nil] at hloc
  rw [inside, steps_append_fresh hr, hloc]
  rfl

theorem Hosts.exists_entries (h : disk.Hosts loc tree) : ∃ es, tree = .directory es := by
  have hd := h.isDirectory
  cases tree with
  | directory es => exact ⟨es, rfl⟩
  | _ => cases hd

theorem Hosts.isFileName_of_at? (h : disk.Hosts loc tree) {n : Node} (hn : tree.at? here = some n) :
    ∀ m ∈ here, IsFileName m :=
  fun _ hm => disk.sound.isFileName_of_mem (h.at?_append.trans hn) (List.mem_append_right loc hm)

theorem follow_way {top : Node} {below : Place} (hs : top.Sound)
    (h : ∃ es, top.at? (here ++ below) = some (.directory es)) (more : List Step) :
    follow top last links here (below.map .into ++ more) = follow top last links (here ++ below) more := by
  induction below generalizing here with
  | nil => simp
  | cons name rest ih =>
    obtain ⟨inner, hat⟩ := h
    have hnext : follow top last links (here ++ [name]) (rest.map .into ++ more) =
        follow top last links (here ++ [name] ++ rest) more := ih ⟨inner, by simpa using hat⟩
    have hname : IsFileName name := hs.isFileName_of_mem hat (by simp)
    rw [Node.at?_append] at hat
    obtain ⟨m, hm, hr⟩ := Option.bind_eq_some_iff.1 hat
    obtain ⟨es, c, rfl, hc, hrest⟩ := Node.at?_cons_eq_some hr
    rw [List.append_assoc, List.singleton_append] at hnext
    rw [List.map_cons, List.cons_append, follow, hm]
    simp only [Nat.not_lt.2 hname.size, if_false, hc]
    cases c with
    | link target => cases rest <;> cases hrest
    | file content modified => exact hnext
    | directory es' => exact hnext

/-- What the text behind the path of a place leads to, as seen from the tree there. -/
def locate (tree : Node) (rest : Bytes) : Except Fault (Place × Node) :=
  if 0 ∈ rest then .error .badName
  else do
    let place ← (stepsIn rest).foldlM (advance tree) []
    match tree.at? place with
    | some n => .ok (place, n)
    | none => .error .missing

/-- Steps behind the path of a place are made in the tree there, and more steps from where they lead. -/
theorem Hosts.resolve_inside (h : disk.Hosts loc tree) (hr : IsFresh rest) {ss more : List Step}
    (hsteps : stepsIn rest = ss ++ more) (hin : StaysIn [] ss) :
    disk.resolve last (inside loc rest) =
      if 0 ∈ rest then .error .badName
      else ss.foldlM (advance tree) [] >>= fun next =>
        follow disk.top last maxLinks (loc ++ next) more := by
  have hnul : (inside loc rest).bytes.contains 0 = decide (0 ∈ rest) := by
    have hloc := pathOf_text_no_nul h.isFileName
    simp [inside, hloc]
  have hstart : startOf disk.current (inside loc rest).bytes = [] := by simp [startOf, inside, pathOf]
  obtain ⟨es, htree⟩ := h.exists_entries
  obtain ⟨top, htop⟩ : ∃ top, disk.top.at? [] = some (.directory top) := by
    obtain ⟨name, below, rfl⟩ := List.exists_cons_of_ne_nil h.ne_nil
    obtain ⟨top, _, htop, -, -⟩ := Node.at?_cons_eq_some h.at?_eq
    exact ⟨top, congrArg some htop⟩
  -- the names of the way are followed on the disk, the steps behind them in the tree
  have hway : follow disk.top last maxLinks [] (loc.map .into ++ (ss ++ more)) =
      follow disk.top last maxLinks ([] ++ loc) (ss ++ more) :=
    follow_way disk.sound ⟨es, by rw [List.nil_append, h.at?_eq, htree]⟩ (ss ++ more)
  have hat : follow disk.top last maxLinks (loc ++ []) (ss ++ more) =
      ss.foldlM (advance tree) [] >>= fun next => follow disk.top last maxLinks (loc ++ next) more :=
    follow_at h.at?_eq h.linkFree (.inr hin) more
  rw [List.append_nil] at hat
  rw [resolve, if_neg (by simp [inside, pathOf]), hnul, hstart, h.steps_inside hr, hsteps, follow, htop]
  simp only [decide_eq_true_eq]
  rw [hway, List.nil_append, hat]

/-- A path inside a tree leads to the same part of the tree wherever the tree stands. -/
theorem Hosts.find_inside (h : disk.Hosts loc tree) (hr : IsInside rest) :
    disk.find last (inside loc rest) = (fun found => (loc ++ found.1, found.2)) <$> locate tree rest := by
  rw [find, h.resolve_inside hr.fresh (List.append_nil _).symm hr.stays, locate]
  split
  · rfl
  · cases (stepsIn rest).foldlM (advance tree) [] with
    | error fault => rfl
    | ok next =>
      have hat : disk.top.at? (loc ++ next) = tree.at? next := h.at?_append
      have hnil : follow disk.top last maxLinks (loc ++ next) [] = .ok (loc ++ next) := by rw [follow]
      simp only [bind, Except.bind, hnil, hat]
      cases tree.at? next <;> rfl

/-- The text behind the path of a place after a name was joined to the path. -/
def joinTail (rest name : Bytes) : Bytes :=
  if rest.getLast? = some slash then rest ++ name else rest ++ slash :: name

theorem Hosts.join_inside (h : disk.Hosts loc tree) {name : Bytes} (hn : name.head? ≠ some slash) :
    (inside loc rest).join name = inside loc (joinTail rest name) := by
  have hempty : [] ∉ loc := fun hm => (h.isFileName [] hm).nonempty rfl
  have hloc : (pathOf loc).bytes.getLast? ≠ some slash := by
    have hne : [slash].intercalate loc ≠ [] := fun he => h.ne_nil ((Text.intercalate_eq_nil_iff hempty).1 he)
    obtain ⟨c, more, hc⟩ := List.exists_cons_of_ne_nil hne
    have hl := Text.getLast?_intercalate_ne (fun n hm => (h.isFileName n hm).no_slash) hempty
    rw [pathOf, hc, List.getLast?_cons_cons, ← hc]
    exact hl
  have hlast : (inside loc rest).bytes = [] ∨ (inside loc rest).bytes.getLast? = some slash ↔
      rest.getLast? = some slash := by
    cases hr : rest.getLast? with
    | none =>
      rw [List.getLast?_eq_none_iff.1 hr]
      simpa [inside, pathOf] using hloc
    | some c =>
      have hne : (inside loc rest).bytes ≠ [] := by simp [inside, pathOf]
      have hl : (inside loc rest).bytes.getLast? = some c := by
        rw [inside, List.getLast?_append, hr, Option.some_or]
      simp [hne, hl]
  rw [Path.join, if_neg hn, joinTail]
  simp only [hlast]
  split <;> simp [inside]

theorem stepsIn_append (t u : Bytes) : stepsIn (t ++ slash :: u) = stepsIn t ++ steps u := by
  rw [stepsIn, steps_append, stepsIn, List.tail_append_of_ne_nil (steps_ne_nil t)]

theorem steps_name {name : Bytes} (hn : slash ∉ name) : steps name = [Step.ofPiece name] := by
  rw [steps, List.splitOn_eq_singleton hn]
  rfl

theorem steps_nil : steps [] = [.stay] := rfl

/-- A slash at the end of a path is a step that stays, and a name that is joined takes its place. -/
theorem exists_joinTail_eq (rest name : Bytes) : ∃ t, joinTail rest name = t ++ slash :: name ∧
    placeIn t = placeIn rest ∧ (StaysIn [] (stepsIn t) ↔ StaysIn [] (stepsIn rest)) := by
  rw [joinTail]
  split
  next hl =>
    obtain ⟨t, rfl⟩ := List.getLast?_eq_some_iff.1 hl
    refine ⟨t, by simp, ?_, ?_⟩
    · rw [placeIn, placeIn, stepsIn_append, steps_nil, List.foldl_append]
      rfl
    · rw [stepsIn_append, steps_nil, staysIn_append]
      simp [StaysIn]
  next => exact ⟨rest, rfl, rfl, Iff.rfl⟩

theorem IsFresh.joinTail (hr : IsFresh rest) (name : Bytes) : IsFresh (joinTail rest name) := by
  unfold Disk.joinTail
  obtain rfl | ⟨more, rfl⟩ := hr
  · exact .inr ⟨name, rfl⟩
  · split
    · exact .inr ⟨more ++ name, rfl⟩
    · exact .inr ⟨more ++ slash :: name, rfl⟩

theorem placeIn_joinTail {name : Bytes} (hn : slash ∉ name) :
    placeIn (joinTail rest name) = (Step.ofPiece name).after (placeIn rest) := by
  obtain ⟨t, ht, hplace, -⟩ := exists_joinTail_eq rest name
  rw [ht, placeIn, stepsIn_append, steps_name hn, List.foldl_append, ← hplace]
  rfl

theorem IsInside.joinTail (hr : IsInside rest) {name : Bytes} (hn : slash ∉ name)
    (hup : Step.ofPiece name = .up → placeIn rest ≠ []) : IsInside (joinTail rest name) := by
  refine ⟨hr.fresh.joinTail name, ?_⟩
  obtain ⟨t, ht, hplace, hstays⟩ := exists_joinTail_eq rest name
  rw [ht, stepsIn_append, steps_name hn, staysIn_append]
  refine ⟨hstays.2 hr.stays, fun hs => ?_, trivial⟩
  rw [← placeIn, hplace]
  exact hup hs

def Step.component? : Step → Option Component
  | .stay => none
  | .up => some .up
  | .into name => some (.name name)

theorem ofPiece?_eq (piece : Bytes) : Component.ofPiece? piece = (Step.ofPiece piece).component? := by
  unfold Component.ofPiece? Step.ofPiece
  split
  · rfl
  · split <;> rfl

theorem components_eq_steps {p : Path} (hp : p.bytes.head? = some slash) :
    p.components = .root :: (steps p.bytes).filterMap Step.component? := by
  rw [Path.components, if_pos (by simpa [Path.isAbsolute] using hp), steps, List.filterMap_map]
  congr 2
  funext piece
  exact ofPiece?_eq piece

theorem foldl_cleanStep (base : List Component) {ss : List Step} (h : StaysIn here ss) :
    (ss.filterMap Step.component?).foldl Path.cleanStep (here.reverse.map .name ++ base) =
      (ss.foldl Step.after here).reverse.map .name ++ base := by
  induction ss generalizing here with
  | nil => rfl
  | cons step ss ih =>
    obtain ⟨hup, hss⟩ := h
    have hnext := ih hss
    -- a step up cancels a name of `here` and never one of `base`
    rw [List.foldl_cons, ← hnext]
    cases step with
    | stay => rfl
    | up =>
      obtain ⟨front, last, rfl⟩ : ∃ front last, here = front ++ [last] :=
        ⟨_, _, (List.dropLast_concat_getLast (hup rfl)).symm⟩
      simp [Step.component?, Path.cleanStep, Step.after]
    | into name => simp [Step.component?, Path.cleanStep, Step.after]

theorem filterMap_component_into (names : List Bytes) :
    (names.map Step.into).filterMap Step.component? = names.map .name := by
  simp [List.filterMap_map, Function.comp_def, Step.component?]

theorem foldl_after_into (here names : List Bytes) :
    (names.map Step.into).foldl Step.after here = here ++ names := by
  induction names generalizing here with
  | nil => simp
  | cons n names ih => simp [Step.after, ih]

theorem staysIn_into (here names : List Bytes) : StaysIn here (names.map .into) := by
  induction names generalizing here with
  | nil => trivial
  | cons n names ih => exact ⟨by simp, ih _⟩

/-- Cleaned, a path inside a tree is the path of the place that it spells. -/
theorem Hosts.clean_inside (h : disk.Hosts loc tree) (hr : IsInside rest) :
    (inside loc rest).clean = pathOf (loc ++ placeIn rest) := by
  have hcs : (inside loc rest).components =
      .root :: ((loc.map .into).filterMap Step.component? ++ (stepsIn rest).filterMap Step.component?) := by
    rw [components_eq_steps (by simp [inside, pathOf]), h.steps_inside hr.fresh, List.filterMap_cons_none rfl,
      List.filterMap_append]
  have hloc := foldl_cleanStep [.root] (staysIn_into [] loc)
  have hrest := foldl_cleanStep (loc.reverse.map .name ++ [.root]) hr.stays
  rw [foldl_after_into, List.nil_append] at hloc
  have hclean : Path.cleanComponents (inside loc rest).components =
      .root :: (loc ++ placeIn rest).map .name := by
    rw [Path.cleanComponents, hcs, List.foldl_cons, List.foldl_append]
    rw [filterMap_component_into] at hloc ⊢
    have hroot : Path.cleanStep [] .root = [.root] := rfl
    rw [hroot]
    simp only [List.reverse_nil, List.map_nil, List.nil_append] at hloc hrest
    rw [hloc, hrest]
    simp [placeIn]
  have hpieces : ((loc ++ placeIn rest).map Component.name).filterMap Component.piece? =
      loc ++ placeIn rest := by
    simp [List.filterMap_map, Function.comp_def, Component.piece?]
  rw [Path.clean, hclean]
  dsimp only
  rw [Path.written, List.filterMap_cons_none rfl, hpieces]
  rfl

structure IsPiece (n : Bytes) : Prop where
  into : Step.ofPiece n = .into n
  no_slash : slash ∉ n

theorem IsFileName.isPiece {n : Bytes} (hn : IsFileName n) : IsPiece n := ⟨hn.ofPiece, hn.no_slash⟩

theorem isPiece_of_mem_steps {t n : Bytes} (h : .into n ∈ steps t) : IsPiece n := by
  obtain ⟨piece, hpiece, hn⟩ := List.mem_map.1 h
  obtain rfl := eq_of_ofPiece_into hn
  exact ⟨hn, Text.notMem_of_mem_splitOn hpiece⟩

theorem mem_foldl_after {n : Bytes} {ss : List Step} (h : n ∈ ss.foldl Step.after here) :
    n ∈ here ∨ .into n ∈ ss := by
  induction ss generalizing here with
  | nil => exact .inl h
  | cons step ss ih =>
    rcases ih h with h | h
    · cases step with
      | stay => exact .inl h
      | up => exact .inl ((List.dropLast_sublist here).subset h)
      | into m =>
        rcases List.mem_append.1 h with h | h
        · exact .inl h
        · exact .inr (by simp [List.mem_singleton.1 h])
    · exact .inr (List.mem_cons_of_mem _ h)

def tailOf (names : List Bytes) : Bytes := names.flatMap (slash :: ·)

theorem tailOf_eq {names : List Bytes} (hn : names ≠ []) : tailOf names = slash :: [slash].intercalate names := by
  induction names with
  | nil => exact absurd rfl hn
  | cons n names ih =>
    rw [tailOf, List.flatMap_cons]
    by_cases h : names = []
    · simp [h]
    · rw [← tailOf, ih h, Text.intercalate_cons h]
      rfl

theorem pathOf_append (names : List Bytes) (hloc : loc ≠ []) :
    pathOf (loc ++ names) = inside loc (tailOf names) := by
  by_cases hn : names = []
  · subst hn
    simp [inside, tailOf]
  · rw [inside, tailOf_eq hn, pathOf, Text.intercalate_append hloc hn]
    rfl

theorem isFresh_tailOf (names : List Bytes) : IsFresh (tailOf names) := by
  cases names with
  | nil => exact .inl rfl
  | cons n names => exact .inr ⟨n ++ tailOf names, rfl⟩

theorem stepsIn_tailOf {names : List Bytes} (hn : ∀ n ∈ names, IsPiece n) :
    stepsIn (tailOf names) = names.map .into := by
  induction names with
  | nil => rfl
  | cons n names ih =>
    have hfirst := hn n (by simp)
    have hcons : tailOf (n :: names) = slash :: (n ++ tailOf names) := rfl
    rw [hcons, stepsIn_slash, steps_append_fresh (isFresh_tailOf names), steps_name hfirst.no_slash,
      ih fun m hm => hn m (by simp [hm]), hfirst.into]
    rfl

theorem isInside_tailOf {names : List Bytes} (hn : ∀ n ∈ names, IsPiece n) : IsInside (tailOf names) := by
  refine ⟨isFresh_tailOf names, ?_⟩
  rw [stepsIn_tailOf hn]
  exact staysIn_into [] names

theorem placeIn_tailOf {names : List Bytes} (hn : ∀ n ∈ names, IsPiece n) :
    placeIn (tailOf names) = names := by
  rw [placeIn, stepsIn_tailOf hn, foldl_after_into, List.nil_append]

theorem locate_eq_ok {place : Place} {n : Node} (h : locate tree rest = .ok (place, n)) :
    place = placeIn rest ∧ tree.at? place = some n := by
  unfold locate at h
  split at h
  · cases h
  · obtain ⟨next, hnext, h⟩ := bind_eq_ok_iff.1 h
    have hplace := foldlM_advance_eq hnext
    split at h
    next hn =>
      cases h
      exact ⟨hplace, hn⟩
    next => cases h

end Disk
end Folio
