import Folio.Proofs.Path.Named
import Folio.Proofs.Target.Search

/-!
# The way to the working directory

A relative pattern is searched below the working directory, the path of which is escaped in front of it as it
is shown. An escaped name is searched like a wildcard when it holds a mark, and then it is passed over when it
begins with a dot. So the way may be lost; if it is not, the search goes on from the working directory.
-/
namespace Folio
namespace Target
open Disk
open Folio.Path (slash dot)
variable {disk : Disk} {here way place : Place} {needDirectory : Bool} {name : Bytes} {rest : List Piece}
  {p : Path} {d : Bool}

/-- Whether an escaped name finds the entries that are shown like it: it does unless these are hidden and the
name holds a mark. -/
def IsSearchable (name : Bytes) : Prop :=
  (Utf8.decodeLossy name).head? = some '.' → ∀ c ∈ Utf8.decodeLossy name, ¬ Glob.IsMark c

theorem isSearchable_iff {name : Bytes} : IsSearchable name ↔
    ((Utf8.decodeLossy name).head? = some '.' → Glob.isMarked (Utf8.decodeLossy name) = false) := by
  simp [IsSearchable, ← Bool.not_eq_true, Glob.isMarked_iff]

instance (name : Bytes) : Decidable (IsSearchable name) := decidable_of_iff _ isSearchable_iff.symm

def escaped (name : Bytes) : Piece := (Utf8.decodeLossy name).map Glob.escapeToken

/-- An escaped name takes what the replacements in it spell. -/
theorem takes_escaped (name other : Bytes) :
    takes (escaped name) other = decide (other = Utf8.encode (Utf8.decodeLossy name)) := by
  rw [Bool.eq_iff_iff, decide_eq_true_eq, takes, Option.any_eq_true, ← Utf8.decode?_eq_some_iff]
  simp [escaped, Glob.accepts_map_escapeToken]

theorem isDeep_escaped (name : Bytes) : isDeep (escaped name) = false := by
  rw [isDeep, decide_eq_false_iff_not]
  intro h
  rw [escaped] at h
  cases hn : Utf8.decodeLossy name with
  | nil =>
    rw [hn] at h
    cases h
  | cons c t =>
    obtain ⟨s, hs, -⟩ := Glob.isExact_escapeToken c
    rw [hn, List.map_cons, hs] at h
    cases h

theorem specialNames_escaped (hn : IsFileName name) : specialNames (escaped name) = [] := by
  have hdot : ([dot] : Bytes) ≠ Utf8.encode (Utf8.decodeLossy name) := fun h =>
    hn.not_dot ((Utf8.decodeLossy_eq_iff (by decide)).1 (Utf8.encode_inj (s := ['.']).1 h).symm)
  have hdots : ([dot, dot] : Bytes) ≠ Utf8.encode (Utf8.decodeLossy name) := fun h =>
    hn.not_dots ((Utf8.decodeLossy_eq_iff (by decide)).1 (Utf8.encode_inj (s := ['.', '.']).1 h).symm)
  unfold specialNames
  simp [takes_escaped, hdot, hdots]

theorem literalText?_escaped (name : Bytes) : Glob.literalText? (escaped name) =
    if Glob.isMarked (Utf8.decodeLossy name) then none else some (Utf8.decodeLossy name) :=
  Glob.literalText?_map_escapeToken _

theorem slash_notMem_escaped (hn : IsFileName name) {t : Text}
    (h : Glob.literalText? (escaped name) = some t) : '/' ∉ t := by
  rw [literalText?_escaped] at h
  split at h
  · cases h
  · exact Option.some.inj h ▸ Path.slash_notMem_decodeLossy hn

theorem isSearchable_of_not_marked (h : ¬ Glob.isMarked (Utf8.decodeLossy name) = true) : IsSearchable name :=
  fun _ c hc hm => h (Glob.isMarked_iff.2 ⟨c, hc, hm⟩)

/-- A name with marks can be searched for exactly if what it spells shows in a directory. -/
theorem isShown_iff_isSearchable (h : Glob.isMarked (Utf8.decodeLossy name) = true) :
    isShown (Utf8.encode (Utf8.decodeLossy name)) = true ↔ IsSearchable name := by
  rw [isShown, Utf8.decode?_encode, Option.any_some, decide_eq_true_eq, IsSearchable]
  constructor
  · exact fun hh hdot => absurd hdot hh
  · intro hh hdot
    obtain ⟨c, hc, hm⟩ := Glob.isMarked_iff.1 h
    exact hh hdot c hc hm

/-! ### A way that is shut -/

theorem isShown_of_mem_children {found : Bytes × Path × Bool} (h : found ∈ children disk p) :
    isShown found.1 = true := by
  rw [children] at h
  split at h
  · obtain ⟨e, he, rfl⟩ := List.mem_map.1 h
    exact (List.mem_filter.1 he).2
  · cases h

/-- Wherever the search has come to, a name that cannot be searched for ends it. -/
theorem search_escaped_eq_nil (hn : IsFileName name) (hshut : ¬ IsSearchable name) :
    search disk needDirectory (escaped name :: rest) p d = [] := by
  have hmark : Glob.isMarked (Utf8.decodeLossy name) = true := by
    by_contra h
    exact hshut (isSearchable_of_not_marked h)
  have hhidden := mt (isShown_iff_isSearchable hmark).1 hshut
  rw [search_cons, literalText?_escaped, if_pos hmark]
  simp only [isDeep_escaped, specialNames_escaped hn, List.flatMap_nil, List.nil_append, Bool.false_eq_true,
    if_false]
  split
  · rfl
  · rw [List.flatMap_eq_nil_iff]
    intro found hfound
    rw [takes_escaped, if_neg]
    rw [decide_eq_true_eq]
    intro he
    exact hhidden (he ▸ isShown_of_mem_children hfound)

theorem search_eq_nil {piece : Piece} (hd : isDeep piece = false)
    (hrest : ∀ p d, onward disk needDirectory rest p d = []) :
    search disk needDirectory (piece :: rest) p d = [] := by
  rw [search_cons]
  simp only [hrest, hd, Bool.false_eq_true, if_false, ite_self]
  split
  · rfl
  · simp

/-- The escaped names of a way lead nowhere if one of them cannot be searched for. -/
theorem onward_shut (hn : ∀ n ∈ way, IsFileName n) (hshut : ¬ ∀ n ∈ way, IsSearchable n) (rest : List Piece)
    (p : Path) (d : Bool) : onward disk needDirectory (way.map escaped ++ rest) p d = [] := by
  induction way generalizing p d with
  | nil => simp at hshut
  | cons name way ih =>
    have hcons : onward disk needDirectory ((name :: way).map escaped ++ rest) p d =
        search disk needDirectory (escaped name :: (way.map escaped ++ rest)) p d := rfl
    rw [hcons]
    by_cases hname : IsSearchable name
    · have hway : ¬ ∀ n ∈ way, IsSearchable n := by simpa [hname] using hshut
      exact search_eq_nil (isDeep_escaped name) (ih (fun n hm => hn n (List.mem_cons_of_mem _ hm)) hway)
    · exact search_escaped_eq_nil (hn name List.mem_cons_self) hname

/-! ### A way that is open -/

theorem flatMap_of_name {β : Type} {es : List (Bytes × Node)} {c : Node} (hn : (es.map (·.1)).Nodup)
    (h : (name, c) ∈ es) (f : Bytes × Node → List β) :
    es.flatMap (fun e => if e.1 = name then f e else []) = f (name, c) := by
  induction es with
  | nil => cases h
  | cons e es ih =>
    rw [List.map_cons, List.nodup_cons] at hn
    rw [List.flatMap_cons]
    rcases List.mem_cons.1 h with rfl | h
    · have hrest : es.flatMap (fun e => if e.1 = name then f e else []) = [] := by
        rw [List.flatMap_eq_nil_iff]
        intro e he
        rw [if_neg]
        rintro rfl
        exact hn.1 (List.mem_map.2 ⟨e, he, rfl⟩)
      rw [if_pos rfl, hrest, List.append_nil]
    · have hne : e.1 ≠ name := by
        rintro rfl
        exact hn.1 (List.mem_map.2 ⟨_, h, rfl⟩)
      rw [if_neg hne, List.nil_append, ih hn.2 h]

theorem flatMap_filter_shown {β : Type} (f : Bytes × Node → List β) (es : List (Bytes × Node)) :
    (es.filter (isShown ·.1)).flatMap f = es.flatMap fun e => if isShown e.1 then f e else [] := by
  induction es with
  | nil => rfl
  | cons e es ih => by_cases he : isShown e.1 = true <;> simp [he, ih]

section
variable {es : List (Bytes × Node)} (h : disk.top.at? (here ++ [name]) = some (.directory es))
  (htext : Utf8.IsText name)
include h htext

/-- Of what shows in the directory above, an escaped name takes the one entry of this name. -/
theorem flatMap_children_escaped (g : Bytes × Path × Bool → List Path) :
    ((children disk (pathOf here)).flatMap fun found => if takes (escaped name) found.1 then g found else []) =
      if isShown name then g (name, pathOf (here ++ [name]), true) else [] := by
  have hname : IsFileName name := disk.sound.isFileName_of_mem h (by simp)
  have hhere : ∀ n ∈ here, IsFileName n := fun n hn => disk.sound.isFileName_of_mem h (by simp [hn])
  obtain ⟨parent, hparent, hchild⟩ : ∃ parent, disk.top.at? here = some (.directory parent) ∧
      (name, .directory es) ∈ parent := by
    rw [Node.at?_append] at h
    obtain ⟨m, hm, hc⟩ := Option.bind_eq_some_iff.1 h
    obtain ⟨parent, c, rfl, hl, hc⟩ := Node.at?_cons_eq_some hc
    cases hc
    exact ⟨parent, hm, (disk.sound.at hm).lookup_iff.1 hl⟩
  have hfind : disk.find true (pathOf here) = .ok (here, .directory parent) :=
    find_pathOf hparent (fun _ => rfl) (by simp)
  rw [children, hfind]
  dsimp only [Node.entries]
  rw [List.flatMap_map, flatMap_filter_shown]
  simp only [takes_escaped, Utf8.isText_iff.1 htext, decide_eq_true_eq]
  -- the test for the name goes in front of the test whether it shows
  have hswap : ∀ (e : Bytes × Node) (l : List Path),
      (if isShown e.1 = true then (if e.1 = name then l else []) else []) =
        if e.1 = name then (if isShown e.1 = true then l else []) else [] := by
    intro e l
    by_cases hn : e.1 = name <;> simp [hn]
  simp only [hswap]
  have hnames : (parent.map (·.1)).Nodup := (disk.sound.at hparent).ascending.nodup
  rw [flatMap_of_name hnames hchild, join_pathOf hhere hname]

theorem search_escaped (hopen : IsSearchable name) (rest : List Piece) :
    search disk needDirectory (escaped name :: rest) (pathOf here) true =
      onward disk needDirectory rest (pathOf (here ++ [name])) true := by
  have hname : IsFileName name := disk.sound.isFileName_of_mem h (by simp)
  have hhere : ∀ n ∈ here, IsFileName n := fun n hn => disk.sound.isFileName_of_mem h (by simp [hn])
  have hread : Utf8.encode (Utf8.decodeLossy name) = name := Utf8.isText_iff.1 htext
  -- a name with a mark is searched for among what shows, a name without is looked up as it is
  by_cases hmark : Glob.isMarked (Utf8.decodeLossy name) = true
  · have hshown : isShown name = true := hread ▸ (isShown_iff_isSearchable hmark).2 hopen
    rw [search_cons, literalText?_escaped, if_pos hmark]
    simp only [isDeep_escaped, specialNames_escaped hname, List.flatMap_nil, List.nil_append, Bool.not_true,
      Bool.false_eq_true, if_false]
    rw [flatMap_children_escaped h htext fun found => onward disk needDirectory rest found.2.1 found.2.2,
      if_pos hshown]
  · have hspecial : ¬ (Utf8.decodeLossy name = ['.'] ∨ Utf8.decodeLossy name = ['.', '.']) := by
      rw [Utf8.decodeLossy_eq_iff (by decide), Utf8.decodeLossy_eq_iff (by decide)]
      exact not_or.2 ⟨hname.not_dot, hname.not_dots⟩
    have hleads : leadsOn disk (Utf8.decodeLossy name) (pathOf (here ++ [name])) true = true := by
      rw [leadsOn, if_neg hspecial, find_pathOf h (fun _ => rfl) (by simp)]
      rfl
    have hliteral : Glob.literalText? (escaped name) = some (Utf8.decodeLossy name) := by
      rw [literalText?_escaped, if_neg hmark]
    have hnext : (pathOf here).join (Utf8.encode (Utf8.decodeLossy name)) = pathOf (here ++ [name]) := by
      rw [hread, join_pathOf hhere hname]
    rw [search_literal hliteral hnext hleads, isDirectory_pathOf h]

end

/-- The escaped names of a way lead along the way, if all of them are texts and can be searched for. -/
theorem onward_open {es : List (Bytes × Node)} (h : disk.top.at? (here ++ way) = some (.directory es))
    (htext : ∀ n ∈ way, Utf8.IsText n) (hopen : ∀ n ∈ way, IsSearchable n) (rest : List Piece) :
    onward disk needDirectory (way.map escaped ++ rest) (pathOf here) true =
      onward disk needDirectory rest (pathOf (here ++ way)) true := by
  induction way generalizing here with
  | nil => simp
  | cons name way ih =>
    rw [List.forall_mem_cons] at htext hopen
    have hbelow : disk.top.at? ((here ++ [name]) ++ way) = some (.directory es) := by simpa using h
    obtain ⟨inner, hname⟩ := Node.exists_directory_above hbelow
    have hrest := ih hbelow htext.2 hopen.2
    rw [List.append_assoc, List.singleton_append] at hrest
    have hcons : onward disk needDirectory ((name :: way).map escaped ++ rest) (pathOf here) true =
        search disk needDirectory (escaped name :: (way.map escaped ++ rest)) (pathOf here) true := rfl
    rw [hcons, search_escaped hname htext.1 hopen.1, hrest]

/-! ### Patterns behind a way -/

theorem collapse_cons {piece : Piece} (hd : isDeep piece = false) (rest : List Piece) :
    collapse (piece :: rest) = piece :: collapse rest := by
  cases rest with
  | nil => rfl
  | cons q rest => rw [collapse, hd, Bool.false_and, if_neg Bool.false_ne_true]

theorem collapse_escaped (names : List Bytes) (rest : List Piece) :
    collapse (names.map escaped ++ rest) = names.map escaped ++ collapse rest := by
  induction names with
  | nil => rfl
  | cons name names ih =>
    rw [List.map_cons, List.cons_append, collapse_cons (isDeep_escaped name), ih]
    rfl

theorem mem_of_mem_collapse {piece : Piece} {pieces : List Piece} (h : piece ∈ collapse pieces) :
    piece ∈ pieces := by
  fun_induction collapse pieces with
  | case1 p q rest hd ih => exact List.mem_cons_of_mem _ (ih h)
  | case2 p q rest hd ih =>
    rcases List.mem_cons.1 h with rfl | h
    · exact List.mem_cons_self
    · exact List.mem_cons_of_mem _ (ih h)
  | case3 ps hps => exact h

theorem slash_notMem_escape {t : Text} (h : '/' ∉ t) : '/' ∉ Glob.escape t := by
  induction t with
  | nil => simp [Glob.escape]
  | cons c t ih =>
    rw [List.mem_cons, not_or] at h
    rw [Glob.escape_cons, List.mem_append, not_or]
    refine ⟨?_, ih h.2⟩
    split <;> simp [h.1]

theorem escape_append (t u : Text) : Glob.escape (t ++ u) = Glob.escape t ++ Glob.escape u :=
  List.flatMap_append

theorem escape_slash (t : Text) : Glob.escape ('/' :: t) = '/' :: Glob.escape t := rfl

theorem escape_intercalate (names : List Text) :
    Glob.escape (['/'].intercalate names) = ['/'].intercalate (names.map Glob.escape) := by
  induction names with
  | nil => rfl
  | cons name names ih =>
    by_cases hn : names = []
    · simp [hn]
    · rw [Text.intercalate_cons hn, escape_append, escape_slash, ih, List.map_cons,
        Text.intercalate_cons (by simpa using hn)]

def componentTexts (target : Text) : List Text :=
  if target = [] then [] else ((Text.beforeLast? '/' target).getD target).splitOn '/'

theorem getLast?_append_slash {front target : Text} (ht : target ≠ []) :
    (front ++ '/' :: target).getLast? = target.getLast? := by
  obtain ⟨c, target, rfl⟩ := List.exists_cons_of_ne_nil ht
  rw [List.getLast?_append, List.getLast?_cons_cons, List.getLast?_cons, Option.some_or]

theorem getD_beforeLast?_append {front target : Text} (ht : target ≠ []) :
    (Text.beforeLast? '/' (front ++ '/' :: target)).getD (front ++ '/' :: target) =
      front ++ '/' :: (Text.beforeLast? '/' target).getD target := by
  by_cases hl : target.getLast? = some '/'
  · obtain ⟨u, rfl⟩ := List.getLast?_eq_some_iff.1 hl
    rw [← List.cons_append, ← List.append_assoc, Text.beforeLast?_append, Text.beforeLast?_append]
    rfl
  · rw [Text.beforeLast?, if_neg (by rwa [getLast?_append_slash ht]), Text.beforeLast?, if_neg hl]
    rfl

def needsDirectory (target : Text) : Bool := ('/' :: target).getLast? = some '/'

theorem pieceTexts_patternOf (hp : ∀ n ∈ place, IsFileName n) (hne : place ≠ []) {target : Text}
    (ht : target.head? ≠ some '/') :
    pieceTexts (patternOf (pathOf place) target) =
      place.map (fun n => Glob.escape (Utf8.decodeLossy n)) ++ componentTexts target := by
  have hpattern : patternOf (pathOf place) target =
      '/' :: (['/'].intercalate (place.map fun n => Glob.escape (Utf8.decodeLossy n)) ++ '/' :: target) := by
    rw [patternOf, if_neg ht, Path.shown_pathOf, escape_slash, escape_intercalate, List.map_map]
    rfl
  have hsplit : (['/'].intercalate (place.map fun n => Glob.escape (Utf8.decodeLossy n))).splitOn '/' =
      place.map fun n => Glob.escape (Utf8.decodeLossy n) := by
    apply List.splitOn_intercalate
    · intro t ht
      obtain ⟨n, hn, rfl⟩ := List.mem_map.1 ht
      exact slash_notMem_escape (Path.slash_notMem_decodeLossy (hp n hn))
    · simpa using hne
  rw [hpattern, pieceTexts, Text.afterFirst?, if_pos rfl]
  dsimp only [Option.getD_some]
  rw [if_neg (by simp), componentTexts]
  by_cases hnil : target = []
  · rw [hnil, Text.beforeLast?_append, Option.getD_some, hsplit, if_pos rfl, List.append_nil]
  · rw [getD_beforeLast?_append hnil, List.splitOn_append_cons_self, hsplit, if_neg hnil]

theorem needsDirectory_patternOf {target : Text} (ht : target.head? ≠ some '/') :
    decide ((patternOf (pathOf place) target).getLast? = some '/') = needsDirectory target := by
  rw [patternOf, if_neg ht, needsDirectory]
  by_cases hnil : target = []
  · simp [hnil]
  · rw [getLast?_append_slash hnil, List.getLast?_cons_of_ne_nil hnil]

theorem mapM_parse_escape (names : List Bytes) :
    (names.map fun n => Glob.escape (Utf8.decodeLossy n)).mapM Glob.parse = .ok (names.map escaped) := by
  induction names with
  | nil => rfl
  | cons name names ih =>
    rw [List.map_cons, List.mapM_cons, Glob.parse_escape, ih]
    rfl

/-- What a relative pattern finds below a working directory, unless it cannot be read: the names of the way
are searched from the top, and then the pieces of the pattern. -/
theorem toOption_expand {es : List (Bytes × Node)}
    (h : disk.top.at? place = some (.directory es)) (hne : place ≠ []) {target : Text}
    (ht : target.head? ≠ some '/') :
    (expand disk (patternOf (pathOf place) target)).toOption =
      if (Glob.parse target).toOption.isSome then
        ((componentTexts target).mapM Glob.parse).toOption.map fun pieces =>
          onward disk (needsDirectory target) (place.map escaped ++ collapse pieces) (pathOf []) true
      else none := by
  have hp : ∀ n ∈ place, IsFileName n := fun n hn => disk.sound.isFileName_of_mem h hn
  have hparse : (Glob.parse (patternOf (pathOf place) target)).toOption.isSome =
      (Glob.parse target).toOption.isSome := by
    rw [patternOf, if_neg ht, Glob.isSome_parse_escape]
  have hpieces : (pieceTexts (patternOf (pathOf place) target)).mapM Glob.parse =
      (componentTexts target).mapM Glob.parse >>= fun pieces => .ok (place.map escaped ++ pieces) := by
    rw [pieceTexts_patternOf hp hne ht, List.mapM_append, mapM_parse_escape]
    rfl
  have hhead : (patternOf (pathOf place) target).head? = some '/' := by
    rw [patternOf, if_neg ht, Path.shown_pathOf]
    rfl
  have hplace : disk.top.at? ([] ++ place) = some (.directory es) := by rwa [List.nil_append]
  obtain ⟨top, htop⟩ := Node.exists_directory_above hplace
  have hstart : disk.isDirectory ⟨[slash]⟩ = true := isDirectory_pathOf htop
  rw [expand, hpieces, if_pos hhead, needsDirectory_patternOf ht, ← hparse]
  cases Glob.parse (patternOf (pathOf place) target) with
  | error fault => rfl
  | ok tokens =>
    cases (componentTexts target).mapM Glob.parse with
    | error fault => rfl
    | ok pieces =>
      have hsearch : search disk (needsDirectory target) (collapse (place.map escaped ++ pieces)) ⟨[slash]⟩
          (disk.isDirectory ⟨[slash]⟩) =
            onward disk (needsDirectory target) (place.map escaped ++ collapse pieces) (pathOf []) true := by
        obtain ⟨name, names, rfl⟩ := List.exists_cons_of_ne_nil hne
        rw [collapse_escaped, hstart]
        rfl
      exact congrArg some hsearch

end Target
end Folio
