import Mathlib.Data.List.Sort
import Folio.Proofs.Disk.Travel
import Folio.Proofs.Path.Below
import Folio.Proofs.Rule.Cascade
import Folio.Proofs.Text.Utf8
import Folio.Proofs.Walk.Order

/-!
# Rules in the order of the tree

The rules of a tree are those of its exclusion files, file by file: the directories come from the root down
and side by side by name, and in each directory the names come as they are asked for. A file without text
gives no rules and takes none from another file.
-/
namespace Folio

namespace Disk
variable {disk : Disk} {root path : Path} {names : List Text} {t : Text} {place below : Place}
  {es : List (Bytes × Node)} {order others : List Place}

def text? (disk : Disk) (path : Path) : Option Text := (disk.readText path).toOption

theorem text?_eq_some_iff : disk.text? path = some t ↔
    ∃ place modified, disk.find true path = .ok (place, .file (Utf8.encode t) modified) := by
  rw [text?, toOption_eq_some_iff, readText, read]
  cases disk.find true path with
  | error fault => simp [bind, Except.bind]
  | ok found =>
    obtain ⟨place, n⟩ := found
    cases n with
    | file content modified =>
      simp only [bind, Except.bind]
      cases hd : Utf8.decode? content with
      | none =>
        have hne : content ≠ Utf8.encode t := by
          intro he
          rw [Utf8.decode?_eq_some_iff.2 he] at hd
          cases hd
        simp [hne]
      | some u =>
        rw [Utf8.decode?_eq_some_iff] at hd
        subst hd
        simp [Utf8.encode_inj]
    | _ => simp [bind, Except.bind]

def rulesFrom (disk : Disk) (dir : Text) (path : Path) : List Text :=
  ((disk.text? path).map (rulesOfFile dir)).getD []

theorem rules_ofFile (dir : Text) (path : Path) :
    (Gathered.ofFile disk dir path).rules = disk.rulesFrom dir path := by
  unfold Gathered.ofFile rulesFrom text?
  split
  next =>
    cases disk.readText path <;> rfl
  next hfile =>
    have hnone : disk.text? path = none := by
      rw [Option.eq_none_iff_forall_ne_some]
      intro t ht
      obtain ⟨place, modified, hfind⟩ := text?_eq_some_iff.1 ht
      simp [isFile, hfind] at hfile
    rw [text?] at hnone
    rw [hnone]
    rfl

/-- A directory stands at a place below a path, with no link between. The path may lead through links,
and a link at its end counts only for what is below it. -/
def HasDirectory (disk : Disk) (root : Path) (below : Place) : Prop :=
  ∃ place n, disk.find (!below.isEmpty) root = .ok (place, n) ∧
    (n.at? below).any Node.isDirectory = true

/-- All directories from a path down, each before what is inside it and side by side by name. -/
structure IsCascade (disk : Disk) (root : Path) (order : List Place) : Prop where
  mem_iff : ∀ below, below ∈ order ↔ disk.HasDirectory root below
  pairwise : order.Pairwise Place.Before

/-- There is only one such order. -/
theorem IsCascade.eq (h : disk.IsCascade root order) (ho : disk.IsCascade root others) :
    order = others := by
  have hasymm : Std.Antisymm fun a b : Place => a < b :=
    ⟨fun _ _ hab hba => absurd hba (List.lt_asymm hab)⟩
  have hirrefl : Std.Irrefl fun a b : Place => a < b := ⟨fun a => List.lt_irrefl a⟩
  apply List.Pairwise.eq_of_mem_iff (h.pairwise.imp Place.Before.lt) (ho.pairwise.imp Place.Before.lt)
  intro below
  rw [h.mem_iff, ho.mem_iff]

section
variable (hd : disk.find true root = .ok (place, .directory es))
include hd

theorem hasDirectory_cons_iff {name : Bytes} {rest : Place} : disk.HasDirectory root (name :: rest) ↔
    ((Node.directory es).at? (name :: rest)).any Node.isDirectory = true := by
  rw [HasDirectory, List.isEmpty_cons, Bool.not_false, hd]
  constructor
  · rintro ⟨place, n, hn, h⟩
    cases hn
    exact h
  · intro h
    exact ⟨place, _, rfl, h⟩

theorem exists_walk_eq :
    ∃ kind, (kind = .directory ↔ disk.HasDirectory root []) ∧
      disk.walk false (fun _ => false) root =
        ((([], kind) :: Node.listingInside (fun _ => false) [] es).map (foundBy root.below)) := by
  have hroute (here : Place) (name : Bytes) (_ : ∀ m ∈ here, IsFileName m) (_ : IsFileName name) :
      (root.below here).join name = root.below (here ++ [name]) := by
    rw [Path.below_append]
    rfl
  have hat : disk.top.at? place = some (.directory es) := (find_eq_ok_iff.1 hd).2
  have hes := disk.sound.at hat
  have hnone : ∀ m ∈ ([] : Place), IsFileName m := by simp
  have hinside (way : List Ancestor) (here : Place) :
      Visit.flattenInside (fun _ => false)
          (visitEntries (fun _ => true) (fun _ => Visit.ofLink) way here root es) =
        (Node.listingInside (fun _ => false) [] es).map (foundBy root.below) :=
    flattenInside_visitEntries hroute hnone (hes [] es rfl).2 fun e he =>
      flatten_visit hroute (hes.of_mem he) (by simpa using (hes [] es rfl).2 e he)
  obtain ⟨front, n, hn⟩ := exists_find_false_of_find_true hd
  have hself : disk.HasDirectory root [] ↔ n.isDirectory = true := by
    simp [HasDirectory, hn, Node.at?]
  rw [walk, visit, hn, hself]
  cases n with
  | directory inner =>
    have hsame := find_true_of_find_false hn rfl
    rw [hd] at hsame
    cases hsame
    refine ⟨.directory, by simp [Node.isDirectory], ?_⟩
    exact congrArg _ (hinside _ _)
  | link target =>
    refine ⟨.link, by simp [Node.isDirectory], ?_⟩
    simp only [hd]
    exact congrArg _ (hinside _ _)
  | file content modified =>
    have hsame := find_true_of_find_false hn rfl
    rw [hd] at hsame
    cases hsame

theorem isCascade_walked {kind : Kind} (hk : kind = .directory ↔ disk.HasDirectory root []) :
    disk.IsCascade root (((([], kind) :: Node.listingInside (fun _ => false) [] es).filter
      (·.2 = .directory)).map (·.1)) := by
  have hat : disk.top.at? place = some (.directory es) := (find_eq_ok_iff.1 hd).2
  have hbefore : ((Node.directory es).listing (fun _ => false) []).Pairwise fun a b => a.1.Before b.1 :=
    Node.pairwise_before_listing (disk.sound.at hat)
  rw [Node.listing, List.pairwise_cons] at hbefore
  have hne : ∀ found ∈ Node.listingInside (fun _ => false) [] es, found.1 ≠ [] := by
    intro found hf he
    have hlt := (hbefore.1 found hf).lt
    rw [he] at hlt
    exact List.lt_irrefl _ hlt
  constructor
  · intro below
    simp only [List.mem_map, List.mem_filter, decide_eq_true_eq]
    cases below with
    | nil =>
      rw [← hk]
      constructor
      · rintro ⟨found, ⟨hf, hkind⟩, hnil⟩
        rcases List.mem_cons.1 hf with rfl | hf
        · exact hkind
        · exact absurd hnil (hne found hf)
      · intro h
        exact ⟨([], kind), ⟨List.mem_cons_self, h⟩, rfl⟩
    | cons name rest =>
      rw [hasDirectory_cons_iff hd, Option.any_eq_true]
      have hlist : (name :: rest, .directory) ∈ (Node.directory es).listing (fun _ => false) [] ↔ _ :=
        Node.mem_listing_iff (disk.sound.at hat)
      rw [Node.listing, List.mem_cons] at hlist
      constructor
      · rintro ⟨⟨found, k⟩, ⟨hf, rfl⟩, rfl⟩
        rcases List.mem_cons.1 hf with hf | hf
        · cases hf
        · obtain ⟨below, m, heq, hm, -⟩ := hlist.1 (.inr hf)
          rw [List.nil_append, Prod.mk.injEq] at heq
          exact ⟨m, heq.1 ▸ hm, kind_eq_directory_iff.1 heq.2.symm⟩
      · rintro ⟨m, hm, hdir⟩
        have hkind : m.kind = .directory := kind_eq_directory_iff.2 hdir
        have hf := hlist.2 ⟨name :: rest, m, by rw [hkind]; rfl, hm, fun _ _ _ _ _ => rfl⟩
        rcases hf with hf | hf
        · cases hf
        · exact ⟨_, ⟨List.mem_cons_of_mem _ hf, rfl⟩, rfl⟩
  · rw [List.pairwise_map]
    apply List.Pairwise.filter
    exact List.pairwise_cons.2 hbefore

theorem rules_ofFound {kind : Kind} {found : Place × Kind}
    (hf : found ∈ ([], kind) :: Node.listingInside (fun _ => false) [] es) :
    (Gathered.ofFound disk root names (foundBy root.below found)).rules =
      if decide (found.2 = .directory) then names.flatMap fun name =>
        disk.rulesFrom (Path.nameBelow found.1) ((root.below found.1).join (Utf8.encode name))
      else [] := by
  have hat : disk.top.at? place = some (.directory es) := (find_eq_ok_iff.1 hd).2
  have hnames : ∀ m ∈ found.1, IsFileName m := by
    rcases List.mem_cons.1 hf with rfl | hf
    · simp
    · have hlist : found ∈ (Node.directory es).listing (fun _ => false) [] := List.mem_cons_of_mem _ hf
      obtain ⟨below, m, rfl, hm, -⟩ := (Node.mem_listing_iff (disk.sound.at hat)).1 hlist
      intro n hn
      exact (disk.sound.at hat).isFileName_of_mem hm (by simpa using hn)
  have hdir := Path.relativeTo_eq_nameBelow (Path.components_below (p := root) hnames)
  rw [foundBy, Gathered.ofFound]
  by_cases hk : found.2 = .directory
  · rw [if_pos hk, if_pos (decide_eq_true hk), Gathered.ofDirectory, Gathered.rules_concat,
      List.flatMap_map, hdir]
    simp only [rules_ofFile]
  · rw [if_neg hk, if_neg (by simpa using hk)]
    rfl

end

/-- What the exclusion files of some directories contribute, each directory before the next and in a
directory one name after another. -/
theorem rules_gather_eq (hd : disk.isDirectory root = true) (hne : names ≠ []) :
    ∃ order, disk.IsCascade root order ∧ (disk.gather false names root).rules =
      order.flatMap fun below => names.flatMap fun name =>
        disk.rulesFrom (Path.nameBelow below) ((root.below below).join (Utf8.encode name)) := by
  obtain ⟨place, es, hd⟩ := exists_find_of_isDirectory hd
  obtain ⟨kind, hk, hwalk⟩ := exists_walk_eq hd
  have hnames : exclusionNames names = names := by simp [exclusionNames, hne]
  refine ⟨_, isCascade_walked hd hk, ?_⟩
  rw [gather, hnames, Gathered.rules_concat, List.flatMap_map, hwalk, List.flatMap_map, List.flatMap_map]
  exact flatMap_eq_flatMap_filter fun found hf => rules_ofFound hd hf

/-- The rules of a tree are those of its exclusion files, directory by directory in the one order that the
directories have and in each directory name by name. Only a file whose bytes are a text contributes. Where
some of the files are without text on another disk, the other files contribute what they did. -/
theorem rules_gather_cascade (hd : disk.isDirectory root = true) (hne : names ≠ []) :
    ∃ order, disk.IsCascade root order ∧
      (disk.gather false names root).rules =
        (order.flatMap fun below => names.flatMap fun name =>
          disk.rulesFrom (Path.nameBelow below) ((root.below below).join (Utf8.encode name))) ∧
      (∀ path t, disk.text? path = some t ↔
        ∃ place modified, disk.find true path = .ok (place, .file (Utf8.encode t) modified)) ∧
      ∀ (damaged : Disk) (bad : Path → Bool), damaged.isDirectory root = true →
        (∀ below, damaged.HasDirectory root below ↔ disk.HasDirectory root below) →
        (∀ below ∈ order, ∀ name ∈ names, damaged.text? ((root.below below).join (Utf8.encode name)) =
          if bad ((root.below below).join (Utf8.encode name)) then none
          else disk.text? ((root.below below).join (Utf8.encode name))) →
        (damaged.gather false names root).rules =
          order.flatMap fun below => names.flatMap fun name =>
            if bad ((root.below below).join (Utf8.encode name)) then []
            else disk.rulesFrom (Path.nameBelow below) ((root.below below).join (Utf8.encode name)) := by
  obtain ⟨order, horder, hrules⟩ := rules_gather_eq hd hne
  refine ⟨order, horder, hrules, fun _ _ => text?_eq_some_iff, ?_⟩
  intro damaged bad hd' hsame htext
  obtain ⟨others, hothers, hrules'⟩ := rules_gather_eq hd' hne
  have heq : others = order := by
    apply hothers.eq
    exact ⟨fun below => (horder.mem_iff below).trans (hsame below).symm, horder.pairwise⟩
  rw [hrules', heq]
  apply List.flatMap_congr
  intro below hbelow
  apply List.flatMap_congr
  intro name hname
  rw [rulesFrom, htext below hbelow name hname]
  split <;> rfl

theorem text?_pathOf {content : Bytes} {modified : Int}
    (h : disk.top.at? place = some (.file content modified)) (hne : place ≠ []) :
    disk.text? (pathOf place) = Utf8.decode? content := by
  rw [text?, readText, read, find_pathOf h (by simp [hne]) (by simp)]
  simp only [bind, Except.bind]
  cases Utf8.decode? content <;> rfl

theorem isCascade_pathOf (h : disk.top.at? place = some (.directory es)) : disk.IsCascade (pathOf place)
      ((((Node.directory es).listing (fun _ => false) []).filter (·.2 = .directory)).map (·.1)) := by
  have hself : disk.HasDirectory (pathOf place) [] :=
    ⟨place, .directory es, find_pathOf h (fun _ => rfl) (by simp), rfl⟩
  exact isCascade_walked (find_pathOf h (fun _ => rfl) (by simp)) (by simp [hself])

/-- The tree with exclusion files in the root and in two directories, one of which is no text. -/
def spoiltTree : Disk where
  top := .directory [(Utf8.ofString ".gitignore", .file (Utf8.ofString "x") 0),
    (Utf8.ofString "a", .directory [(Utf8.ofString ".gitignore", .file [0xFF] 0)]),
    (Utf8.ofString "b", .directory [(Utf8.ofString ".gitignore", .file (Utf8.ofString "y") 0)])]
  current := []
  sound := by decide

theorem rules_gather_cascade_nestedTree :
    let rules (place : Place) := nestedTree.rulesFrom (Path.nameBelow place)
      (pathOf (place ++ [Utf8.encode defaultExclusionFile]))
    nestedTree.isDirectory (pathOf []) = true ∧
      (nestedTree.gather false [defaultExclusionFile] (pathOf [])).rules =
        rules [] ++ (rules [Utf8.ofString "a"] ++ rules [Utf8.ofString "b"]) ∧
      (spoiltTree.gather false [defaultExclusionFile] (pathOf [])).rules =
        rules [] ++ rules [Utf8.ofString "b"] := by
  intro rules
  have hcascade : nestedTree.IsCascade (pathOf []) [[], [Utf8.ofString "a"], [Utf8.ofString "b"]] := by
    have hwalked : nestedTree.IsCascade (pathOf []) _ := isCascade_pathOf rfl
    exact hwalked
  have hcascade' : spoiltTree.IsCascade (pathOf []) [[], [Utf8.ofString "a"], [Utf8.ofString "b"]] := by
    have hwalked : spoiltTree.IsCascade (pathOf []) _ := isCascade_pathOf rfl
    exact hwalked
  have hd : nestedTree.isDirectory (pathOf []) = true := isDirectory_pathOf rfl
  obtain ⟨order, horder, hrules, -, hdamaged⟩ :=
    rules_gather_cascade hd (List.cons_ne_nil defaultExclusionFile [])
  cases horder.eq hcascade
  have hspoilt := hdamaged spoiltTree (· = pathOf [Utf8.ofString "a", Utf8.encode defaultExclusionFile])
    (isDirectory_pathOf rfl) fun below => (hcascade'.mem_iff below).symm.trans (hcascade.mem_iff below)
  have hroot : ((pathOf []).below []).join (Utf8.encode defaultExclusionFile) =
    pathOf [Utf8.encode defaultExclusionFile] := rfl
  have ha : ((pathOf []).below [Utf8.ofString "a"]).join (Utf8.encode defaultExclusionFile) =
    pathOf [Utf8.ofString "a", Utf8.encode defaultExclusionFile] := rfl
  have hb : ((pathOf []).below [Utf8.ofString "b"]).join (Utf8.encode defaultExclusionFile) =
    pathOf [Utf8.ofString "b", Utf8.encode defaultExclusionFile] := rfl
  have hne : pathOf [Utf8.encode defaultExclusionFile] ≠
      pathOf [Utf8.ofString "a", Utf8.encode defaultExclusionFile] ∧
    pathOf [Utf8.ofString "b", Utf8.encode defaultExclusionFile] ≠
      pathOf [Utf8.ofString "a", Utf8.encode defaultExclusionFile] := by decide
  refine ⟨hd, by simpa [rules, hroot, ha, hb] using hrules, ?_⟩
  rw [hspoilt]
  · simp [rules, hroot, ha, hb, hne]
  · intro below hbelow name hname
    cases List.mem_singleton.1 hname
    rcases List.mem_cons.1 hbelow with rfl | hbelow
    · rw [hroot, text?_pathOf rfl (by simp), text?_pathOf rfl (by simp)]
      simp [hne]
    rcases List.mem_cons.1 hbelow with rfl | hbelow
    · rw [ha, text?_pathOf rfl (by simp)]
      simp [Utf8.decode?, Utf8.scan]
    · rw [List.mem_singleton.1 hbelow, hb, text?_pathOf rfl (by simp), text?_pathOf rfl (by simp)]
      simp [hne]

end Disk
end Folio
