import Mathlib.Data.List.Chain
import Folio.Proofs.Markup.Reading
import Folio.Proofs.Outline.Placement

/-!
# Reading outlines

A written outline is read character by character into tags, and the tags are put together by what opens
and closes around them. This gives back the outline. Along the way the tags show that each file stands in
the directories that its name spells.
-/
namespace Folio.Outline
open Markup

inductive Tag where
  | file (name : Text)
  | opening (name : Text)
  | closing
  deriving DecidableEq

/-- The tag at the beginning of a text, behind any spaces, and the rest behind the tag's line. -/
def tag? (t : Text) : Option (Tag × Text) :=
  let t := t.dropWhile (· = ' ')
  match behind? "<file path=\"".toList t with
  | some t => do
    let (name, t) ← Attribute.value? t
    let t ← behind? " />\n".toList t
    some (.file name, t)
  | none =>
    match behind? "<directory name=\"".toList t with
    | some t => do
      let (name, t) ← Attribute.value? t
      let t ← behind? ">\n".toList t
      some (.opening name, t)
    | none => do
      let t ← behind? "</directory>\n".toList t
      some (.closing, t)

/-- The tags of a text that holds nothing else. -/
def tags? (t : Text) : Option (List Tag) :=
  if t = [] then some []
  else
    match tag? t with
    | none => none
    | some (tag, rest) =>
      if _h : rest.length < t.length then (tags? rest).map (tag :: ·) else none
termination_by t.length

/-- A directory that is open, with what was read of it so far. -/
structure Frame where
  name : Text
  files : List Text
  directories : Index Text Outline

def Frame.outline (f : Frame) : Outline := .node f.files f.directories

/-- One tag more for the open directories, the innermost first. -/
def step : List Frame → Tag → Option (List Frame)
  | f :: outer, .file name => some ({ f with files := f.files ++ [name] } :: outer)
  | open_, .opening name => some (⟨name, [], []⟩ :: open_)
  | f :: g :: outer, .closing =>
    some ({ g with directories := g.directories ++ [(f.name, f.outline)] } :: outer)
  | _, _ => none

/-- The outline that a text tells. Every directory that is opened has to be closed. -/
def read? (t : Text) : Option Outline := do
  let tags ← tags? t
  match ← tags.foldlM step [⟨[], [], []⟩] with
  | [f] => some f.outline
  | _ => none

/-- The files among some tags, each with the directories that are open around it. A closing tag needs a
directory to close, and in the end none may be open. -/
def enclosures? : List Text → List Tag → Option (List (List Text × Text))
  | [], [] => some []
  | _ :: _, [] => none
  | way, .file name :: rest => (enclosures? way rest).map ((way, name) :: ·)
  | way, .opening d :: rest => enclosures? (way ++ [d]) rest
  | way, .closing :: rest => if way = [] then none else enclosures? way.dropLast rest

/-- What may come right behind a tag: a directory is not closed where it is opened, and no file follows a
directory. -/
def Tag.MayPrecede : Tag → Tag → Prop
  | .opening _, .closing => False
  | .closing, .file _ => False
  | _, _ => True

mutual
def tags : Outline → List Tag
  | .node fs ds => fs.map .file ++ tagsAll ds

def tagsAll : List (Text × Outline) → List Tag
  | [] => []
  | (d, o) :: rest => .opening d :: (tags o ++ .closing :: tagsAll rest)
end

variable {o : Outline} {fs : List Text} {ds : List (Text × Outline)} {rest : List Tag} {t : Text}
  {level : Nat} {name d : Text} {way : List Text}

section Tags

theorem dropWhile_indent (level : Nat) {c : Char} (hc : c ≠ ' ') (t : Text) :
    (indent level ++ c :: t).dropWhile (· = ' ') = c :: t := by
  rw [indent, List.dropWhile_append]
  simp [hc]

theorem tag?_file (level : Nat) (name t : Text) :
    tag? (fileLine level name ++ t) = some (.file name, t) := by
  have hopen : fileLine level name ++ t = indent level ++ '<' :: ("file path=\"".toList ++
      (Attribute.escape name ++ '"' :: (" />\n".toList ++ t))) := by
    simp [fileLine, Attribute.render]
  have hfile : ∀ u, '<' :: ("file path=\"".toList ++ u) = "<file path=\"".toList ++ u := fun _ => rfl
  rw [hopen, tag?, dropWhile_indent level (by decide), hfile, behind?_append]
  simp only [Attribute.value?_escape, Option.bind_eq_bind, Option.bind_some, behind?_append]

theorem tag?_opening (level : Nat) (name t : Text) :
    tag? (indent level ++ "<directory ".toList ++ Attribute.render "name".toList name ++ ">\n".toList ++ t) =
      some (.opening name, t) := by
  have hopen : indent level ++ "<directory ".toList ++ Attribute.render "name".toList name ++
      ">\n".toList ++ t = indent level ++ '<' :: ("directory name=\"".toList ++
        (Attribute.escape name ++ '"' :: (">\n".toList ++ t))) := by
    simp [Attribute.render]
  have hfile : ∀ u, behind? "<file path=\"".toList ('<' :: ("directory name=\"".toList ++ u)) = none :=
    fun _ => rfl
  have hdirectory : ∀ u, '<' :: ("directory name=\"".toList ++ u) = "<directory name=\"".toList ++ u :=
    fun _ => rfl
  rw [hopen, tag?, dropWhile_indent level (by decide), hfile, hdirectory, behind?_append]
  simp only [Attribute.value?_escape, Option.bind_eq_bind, Option.bind_some, behind?_append]

theorem tag?_closing (level : Nat) (t : Text) :
    tag? (indent level ++ "</directory>\n".toList ++ t) = some (.closing, t) := by
  have hopen : indent level ++ "</directory>\n".toList ++ t =
      indent level ++ '<' :: ("/directory>\n".toList ++ t) := by
    simp
  have hfile : ∀ u, behind? "<file path=\"".toList ('<' :: ("/directory>\n".toList ++ u)) = none :=
    fun _ => rfl
  have hdirectory : ∀ u,
      behind? "<directory name=\"".toList ('<' :: ("/directory>\n".toList ++ u)) = none := fun _ => rfl
  have hclose : ∀ u, '<' :: ("/directory>\n".toList ++ u) = "</directory>\n".toList ++ u := fun _ => rfl
  rw [hopen, tag?, dropWhile_indent level (by decide), hfile, hdirectory, hclose, behind?_append]
  rfl

theorem tags?_of_tag? {tag : Tag} {line : Text} (h : tag? (line ++ t) = some (tag, t)) (hl : line ≠ []) :
    tags? (line ++ t) = (tags? t).map (tag :: ·) := by
  have hlength : t.length < (line ++ t).length := by
    have hpos := List.length_pos_iff.2 hl
    rw [List.length_append]
    omega
  rw [tags?, if_neg (by simp [hl]), h]
  simp only [hlength, dif_pos]

theorem tags?_files (level : Nat) (fs : List Text) (t : Text) :
    tags? (fs.flatMap (fileLine level) ++ t) = (tags? t).map (fs.map .file ++ ·) := by
  induction fs with
  | nil => simp
  | cons name fs ih =>
    have hline : fileLine level name ≠ [] := by simp [fileLine]
    rw [List.flatMap_cons, List.append_assoc, tags?_of_tag? (tag?_file level name _) hline, ih,
      Option.map_map]
    rfl

theorem tags?_renderAll
    (h : ∀ e ∈ ds, ∀ level t, tags? (render level e.2 ++ t) = (tags? t).map (e.2.tags ++ ·))
    (level : Nat) (t : Text) :
    tags? (renderAll level ds ++ t) = (tags? t).map (tagsAll ds ++ ·) := by
  induction ds with
  | nil => simp [renderAll, tagsAll]
  | cons e ds ih =>
    obtain ⟨d, o⟩ := e
    have hinside : ∀ t, tags? (render (level + 1) o ++ t) = (tags? t).map (o.tags ++ ·) :=
      h (d, o) (by simp) (level + 1)
    have hrest := ih fun e he => h e (by simp [he])
    have hopen : indent level ++ "<directory ".toList ++ Attribute.render "name".toList d ++
        ">\n".toList ≠ [] := by simp
    have hclose : indent level ++ "</directory>\n".toList ≠ [] := by simp
    have hsplit : renderAll level ((d, o) :: ds) ++ t =
        (indent level ++ "<directory ".toList ++ Attribute.render "name".toList d ++ ">\n".toList) ++
          (render (level + 1) o ++ ((indent level ++ "</directory>\n".toList) ++
            (renderAll level ds ++ t))) := by
      simp only [renderAll, List.append_assoc]
    rw [hsplit, tags?_of_tag? (tag?_opening level d _) hopen, hinside,
      tags?_of_tag? (tag?_closing level _) hclose, hrest]
    simp only [Option.map_map]
    congr 1
    funext more
    simp [tagsAll]

/-- A written outline is read as its tags, whatever its level and whatever follows it. -/
theorem tags?_render (level : Nat) (o : Outline) (t : Text) :
    tags? (render level o ++ t) = (tags? t).map (o.tags ++ ·) := by
  induction o using inductionOn generalizing level t with
  | node fs ds ih =>
    rw [render, List.append_assoc, tags?_files, tags?_renderAll ih, Option.map_map, tags]
    congr 1
    funext more
    simp

end Tags

section Frames

theorem foldlM_step_files (fs : List Text) (f : Frame) (outer : List Frame) :
    (fs.map Tag.file).foldlM step (f :: outer) =
      some ({ f with files := f.files ++ fs } :: outer) := by
  induction fs generalizing f with
  | nil => simp
  | cons name fs ih =>
    rw [List.map_cons, List.foldlM_cons, step, Option.bind_eq_bind, Option.bind_some, ih]
    simp

theorem node_files_directories (o : Outline) : .node o.files o.directories = o := by
  cases o
  rfl

theorem foldlM_step_tagsAll
    (h : ∀ e ∈ ds, ∀ f outer, e.2.tags.foldlM step (f :: outer) =
      some (⟨f.name, f.files ++ e.2.files, f.directories ++ e.2.directories⟩ :: outer))
    (f : Frame) (outer : List Frame) :
    (tagsAll ds).foldlM step (f :: outer) = some (⟨f.name, f.files, f.directories ++ ds⟩ :: outer) := by
  induction ds generalizing f with
  | nil => simp [tagsAll]
  | cons e ds ih =>
    obtain ⟨d, o⟩ := e
    have hinside := h (d, o) (by simp) ⟨d, [], []⟩ (f :: outer)
    have hrest := ih fun e he => h e (by simp [he])
    simp only [List.nil_append] at hinside
    simp only [tagsAll, List.foldlM_cons, List.foldlM_append, step, Option.bind_eq_bind, Option.bind_some,
      hinside, hrest, Frame.outline, node_files_directories, List.append_assoc, List.singleton_append]

theorem foldlM_step_tags (o : Outline) (f : Frame) (outer : List Frame) :
    o.tags.foldlM step (f :: outer) =
      some (⟨f.name, f.files ++ o.files, f.directories ++ o.directories⟩ :: outer) := by
  induction o using inductionOn generalizing f outer with
  | node fs ds ih =>
    rw [tags, List.foldlM_append, foldlM_step_files, Option.bind_eq_bind, Option.bind_some,
      foldlM_step_tagsAll ih]
    rfl

theorem read?_of_tags? (h : tags? t = some o.tags) : read? t = some o := by
  simp only [read?, h, Option.bind_eq_bind, Option.bind_some, foldlM_step_tags, List.nil_append,
    Frame.outline, node_files_directories]

end Frames

section Structure

theorem isChain_files (fs : List Text) (h : rest.IsChain Tag.MayPrecede) :
    (fs.map Tag.file ++ rest).IsChain Tag.MayPrecede := by
  induction fs with
  | nil => exact h
  | cons name fs ih =>
    rw [List.map_cons, List.cons_append, List.isChain_cons]
    refine ⟨fun y _ => ?_, ih⟩
    cases y <;> trivial

theorem mayPrecede_head (ho : o ≠ empty) : ∀ tag ∈ (o.tags ++ rest).head?, (Tag.opening d).MayPrecede tag := by
  obtain ⟨fs, ds⟩ := o
  intro tag htag
  cases fs with
  | cons name fs =>
    cases htag
    trivial
  | nil =>
    cases ds with
    | nil => exact absurd rfl ho
    | cons e ds =>
      cases htag
      trivial

theorem isChain_tagsAll (hfull : ∀ e ∈ ds, e.2 ≠ empty)
    (h : ∀ e ∈ ds, ∀ rest : List Tag, rest.IsChain Tag.MayPrecede →
      (∀ name, rest.head? ≠ some (.file name)) → (e.2.tags ++ rest).IsChain Tag.MayPrecede)
    (hrest : rest.IsChain Tag.MayPrecede) (hfile : ∀ name, rest.head? ≠ some (.file name)) :
    (tagsAll ds ++ rest).IsChain Tag.MayPrecede ∧
      ∀ name, (tagsAll ds ++ rest).head? ≠ some (.file name) := by
  induction ds with
  | nil => exact ⟨hrest, hfile⟩
  | cons e ds ih =>
    obtain ⟨d, o⟩ := e
    obtain ⟨hbehind, hhead⟩ := ih (fun e he => hfull e (by simp [he])) fun e he => h e (by simp [he])
    have hclosing : (Tag.closing :: (tagsAll ds ++ rest)).IsChain Tag.MayPrecede := by
      refine List.isChain_cons.2 ⟨fun tag htag => ?_, hbehind⟩
      cases tag with
      | file name => exact absurd htag (hhead name)
      | opening name => trivial
      | closing => trivial
    have hinside := h (d, o) (by simp) _ hclosing (by simp)
    rw [tagsAll, List.cons_append, List.append_assoc]
    exact ⟨List.isChain_cons.2 ⟨mayPrecede_head (hfull (d, o) (by simp)), hinside⟩, by simp⟩

theorem IsPlaced.isChain_tags (h : IsPlaced way o) (hrest : rest.IsChain Tag.MayPrecede)
    (hfile : ∀ name, rest.head? ≠ some (.file name)) : (o.tags ++ rest).IsChain Tag.MayPrecede := by
  induction o using inductionOn generalizing way rest with
  | node fs ds ih =>
    cases h with
    | node _ _ full below =>
      rw [tags, List.append_assoc]
      apply isChain_files
      exact (isChain_tagsAll full (fun e he _ => ih e he (below e he)) hrest hfile).1

theorem enclosures?_files (fs : List Text) (way : List Text) (rest : List Tag) :
    enclosures? way (fs.map .file ++ rest) =
      (enclosures? way rest).map ((fs.map fun name => (way, name)) ++ ·) := by
  induction fs with
  | nil => simp
  | cons name fs ih =>
    rw [List.map_cons, List.cons_append, enclosures?, ih, Option.map_map]
    rfl

/-- The files that `tags` tell, each in its directory, in front of those of any tags that follow. -/
def Encloses (way : List Text) (tags : List Tag) : Prop :=
  ∃ found, (∀ e ∈ found, directory? e.2 = some e.1) ∧
    ∀ rest, enclosures? way (tags ++ rest) = (enclosures? way rest).map (found ++ ·)

theorem encloses_tagsAll (h : ∀ e ∈ ds, Encloses (way ++ [e.1]) e.2.tags) :
    Encloses way (tagsAll ds) := by
  induction ds with
  | nil => exact ⟨[], by simp, by simp [tagsAll]⟩
  | cons e ds ih =>
    obtain ⟨d, o⟩ := e
    obtain ⟨inside, hinside, hin⟩ := h (d, o) (by simp)
    obtain ⟨behind, hbehind, hbe⟩ := ih fun e he => h e (by simp [he])
    refine ⟨inside ++ behind, ?_, ?_⟩
    · intro e he
      exact (List.mem_append.1 he).elim (hinside e) (hbehind e)
    · intro rest
      rw [tagsAll, List.cons_append, List.append_assoc, enclosures?, hin, List.cons_append, enclosures?,
        if_neg (by simp), List.dropLast_concat, hbe, Option.map_map]
      congr 1
      funext more
      simp

theorem IsPlaced.encloses_tags (h : IsPlaced way o) : Encloses way o.tags := by
  induction o using inductionOn generalizing way with
  | node fs ds ih =>
    cases h with
    | node files _ _ below =>
      obtain ⟨found, hfound, hrest⟩ := encloses_tagsAll fun e he => ih e he (below e he)
      refine ⟨(fs.map fun name => (way, name)) ++ found, ?_, ?_⟩
      · intro e he
        rcases List.mem_append.1 he with he | he
        · obtain ⟨name, hname, rfl⟩ := List.mem_map.1 he
          exact files name hname
        · exact hfound e he
      · intro rest
        rw [tags, List.append_assoc, enclosures?_files, hrest, Option.map_map]
        congr 1
        funext more
        simp

theorem IsPlaced.at? (h : IsPlaced way o) {target : List Text} {p : Outline}
    (hp : o.at? target = some p) : IsPlaced (way ++ target) p := by
  induction target generalizing way o with
  | nil =>
    cases hp
    simpa using h
  | cons d target ih =>
    obtain ⟨inside, hf, hin⟩ := Option.bind_eq_some_iff.1 hp
    have hinside := ih (h.of_find? hf) hin
    rwa [List.append_assoc] at hinside

end Structure

/-- The outline of some names is read back from what is written of it, at any level. In the tags of the text
each file is enclosed by the directories that its name spells, every directory that is opened is closed and
none is empty, and files come before directories. The directories inside any one are in order. -/
theorem read?_render (names : List Text) (level : Nat) :
    let o := ofNames names
    read? (render level o) = some o ∧
      (∃ tags, tags? (render level o) = some tags ∧ tags.IsChain Tag.MayPrecede ∧
        ∃ found, enclosures? [] tags = some found ∧ ∀ e ∈ found, directory? e.2 = some e.1) ∧
      ∀ way inside, o.at? way = some inside → inside.directories.Ascending := by
  intro o
  have hplaced : IsPlaced [] o := isPlaced_ofNames names
  have htags : tags? (render level o) = some o.tags := by
    have hempty : tags? [] = some [] := by rw [tags?, if_pos rfl]
    have hrender := tags?_render level o []
    rwa [List.append_nil, hempty, Option.map_some, List.append_nil] at hrender
  obtain ⟨found, hfound, hrest⟩ := hplaced.encloses_tags
  have henclosures : enclosures? [] o.tags = some found := by
    have hend := hrest []
    rwa [List.append_nil, enclosures?, Option.map_some, List.append_nil] at hend
  have hchain : o.tags.IsChain Tag.MayPrecede := by
    have hnone : ([] : List Tag).IsChain Tag.MayPrecede := .nil
    have hend := hplaced.isChain_tags hnone (by simp)
    rwa [List.append_nil] at hend
  refine ⟨read?_of_tags? htags, ⟨o.tags, htags, hchain, found, henclosures, hfound⟩, ?_⟩
  intro way inside hin
  exact (hplaced.at? hin).ascending

/-- A directory whose name looks like the end of its own tag, with another one in it. -/
theorem read?_render_marked :
    let names := ["d\">\n</directory>/&lt;/x".toList, "d\">\n</directory>/y".toList, "z".toList]
    let o := ofNames names
    let way := ["d\">\n<".toList]
    (o.at? way).isSome = true ∧ read? (render 2 o) = some o ∧
      ∃ inside, o.at? way = some inside ∧ inside.directories.Ascending := by
  intro names o way
  obtain ⟨hread, -, hascending⟩ := read?_render names 2
  have hsome : (o.at? way).isSome = true := by decide +kernel
  obtain ⟨inside, hin⟩ := Option.isSome_iff_exists.1 hsome
  exact ⟨hsome, hread, inside, hin, hascending way inside hin⟩

end Folio.Outline
