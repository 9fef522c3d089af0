import Folio.Rule.Gather
import Folio.Proofs.Disk.Travel
import Folio.Proofs.Path.Named
import Folio.Proofs.Rule.Parts
import Folio.Proofs.Rule.Scope
import Folio.Proofs.Rule.Verdict
import Folio.Proofs.Walk.Listing

/-!
# Rules on the way to a path

The rules of all exclusion files of a tree stand in one list. For a path only those of the directories matter
that are shown as the directories on the way to it. These are the directories above it unless others are shown
like one of them; then any order that puts each directory before those inside it gives the same verdict.
-/
namespace Folio

namespace Rule
variable {path : Text} {names : List Text} {place : Place}

/-- The directories on the way to a path, each by the names that lead to it. -/
def way (path : Text) : List (List Text) := [] :: (ancestors path).map (·.splitOn '/')

theorem prefix_of_mem_way (h : names ∈ way path) : names <+: path.splitOn '/' := by
  rcases List.mem_cons.1 h with rfl | h
  · exact List.nil_prefix
  · obtain ⟨q, hq, rfl⟩ := List.mem_map.1 h
    obtain ⟨-, r, rfl⟩ := mem_ancestors.1 hq
    rw [List.splitOn_append_cons_self]
    exact List.prefix_append _ _

theorem mem_way_nameBelow (hp : ∀ n ∈ place, Disk.IsFileName n) :
    names ∈ way (Path.nameBelow place) ↔ names <+: place.dropLast.map Utf8.decodeLossy := by
  by_cases hne : place = []
  · subst hne
    have hway : way (Path.nameBelow []) = [[]] := by decide
    rw [hway, List.mem_singleton, List.dropLast_nil, List.map_nil, List.prefix_nil]
  · have hslash : ∀ t ∈ place.map Utf8.decodeLossy, '/' ∉ t := by
      intro t ht
      obtain ⟨n, hn, rfl⟩ := List.mem_map.1 ht
      exact Path.slash_notMem_decodeLossy (hp n hn)
    have hempty : [] ∉ place.map Utf8.decodeLossy := by
      intro h
      obtain ⟨n, hn, hnil⟩ := List.mem_map.1 h
      exact (hp n hn).nonempty (Utf8.decodeLossy_eq_nil_iff.1 hnil)
    rw [way, Path.nameBelow, if_neg hne, List.mem_cons, List.mem_map, List.map_dropLast]
    simp only [mem_ancestors_intercalate hslash hempty]
    constructor
    · rintro (rfl | ⟨_, ⟨front, back, hfront, hback, heq, rfl⟩, rfl⟩)
      · exact List.nil_prefix
      · rw [List.splitOn_intercalate '/' (fun t ht => hslash t (by simp [heq, ht])) hfront, heq,
          List.dropLast_append_of_ne_nil hback]
        exact List.prefix_append front _
    · intro h
      by_cases hnames : names = []
      · exact .inl hnames
      · obtain ⟨more, hmore⟩ := h
        have hlast := List.dropLast_append_getLast (l := place.map Utf8.decodeLossy) (by simpa using hne)
        rw [← hmore, List.append_assoc] at hlast
        refine .inr ⟨_, ⟨names, _, hnames, by simp, hlast.symm, rfl⟩, ?_⟩
        exact List.splitOn_intercalate '/' (fun t ht => hslash t (by rw [← hlast]; simp [ht])) hnames

end Rule

theorem flatMap_eq_flatMap_filter {α β : Type} {p : α → Bool} {f g : α → List β} {l : List α}
    (h : ∀ a ∈ l, f a = if p a then g a else []) : l.flatMap f = (l.filter p).flatMap g := by
  induction l with
  | nil => rfl
  | cons a l ih =>
    rw [List.flatMap_cons, h a (by simp), ih fun b hb => h b (by simp [hb]), List.filter_cons]
    cases p a <;> simp

namespace Disk
variable {disk : Disk} {root : Place} {path : Text} {isDirectory : Bool} {names extra : List Text}

/-- The rules that the exclusion files of the directory at `place` give. -/
def rulesAt (disk : Disk) (names : List Text) (root place : Place) : List Text :=
  (Gathered.ofDirectory disk (pathOf root) (exclusionNames names) (pathOf place)).rules

/-- A directory of the tree at `root` is shown as one on the way to a path. -/
def IsOnWay (disk : Disk) (root : Place) (path : Text) (below : Place) : Prop :=
  (disk.top.at? (root ++ below)).any Node.isDirectory = true ∧ below.map Utf8.decodeLossy ∈ Rule.way path

/-- Of the directories that are shown as those on the way to a path no two are shown alike. -/
def HasOneWay (disk : Disk) (root : Place) (path : Text) : Prop :=
  ∀ a b, disk.IsOnWay root path a → disk.IsOnWay root path b →
    a.map Utf8.decodeLossy = b.map Utf8.decodeLossy → a = b

def onWay (root : Place) (path : Text) (places : List Place) : List Place :=
  places.filter fun place => (place.drop root.length).map Utf8.decodeLossy ∈ Rule.way path

/-- The directories of the tree at `root` in some order that puts each before those inside it. -/
structure IsTopDown (disk : Disk) (root : Place) (order : List Place) : Prop where
  mem_iff : ∀ place, place ∈ order ↔ root <+: place ∧ (disk.top.at? place).any Node.isDirectory = true
  outer_first : order.Pairwise fun a b => ¬ b <+: a

/-- The directories of the tree at `root` have names that mean nothing but themselves in a pattern. -/
def HasPlainDirectories (disk : Disk) (root : Place) : Prop :=
  ∀ below, (disk.top.at? (root ++ below)).any Node.isDirectory = true →
    ∀ n ∈ below, ∀ c ∈ Utf8.decodeLossy n, c ∉ ['*', '?', '[', ']', '\\', '!']

section
variable {place : Place} {es : List (Bytes × Node)} (h : disk.top.at? place = some (.directory es))
include h

theorem rulesAt_of_missing (hn : es.lookup (Utf8.encode defaultExclusionFile) = none) :
    disk.rulesAt [] root place = [] := by
  have hname : IsFileName (Utf8.encode defaultExclusionFile) := by decide
  have hfind := find_join_missing (find_pathOf h (fun _ => rfl) (by simp)) hname hn true
  simp [rulesAt, exclusionNames, Gathered.ofDirectory, Gathered.rules_concat, Gathered.ofFile, isFile, hfind,
    Gathered.none]

theorem rulesAt_of_file {content : Text} {modified : Int}
    (hn : es.lookup (Utf8.encode defaultExclusionFile) = some (.file (Utf8.encode content) modified)) :
    disk.rulesAt [] root place = rulesOfFile (Path.relativeTo (pathOf root) (pathOf place)) content := by
  have hname : IsFileName (Utf8.encode defaultExclusionFile) := by decide
  have hfind : disk.find true ((pathOf place).join (Utf8.encode defaultExclusionFile)) = .ok (_, .file _ _) :=
    find_join (find_pathOf h (fun _ => rfl) (by simp)) hname hn (by simp [Node.isLink])
  have hread : disk.readText ((pathOf place).join (Utf8.encode defaultExclusionFile)) = .ok content := by
    simp [readText, read, hfind, Utf8.decode?_encode, bind, Except.bind]
  simp [rulesAt, exclusionNames, Gathered.ofDirectory, Gathered.rules_concat, Gathered.ofFile, isFile, hfind,
    hread]

end

theorem IsTopDown.hasPlainDirectories {order : List Place} (ho : disk.IsTopDown root order)
    (h : (order.flatMap fun place => (place.drop root.length).flatMap Utf8.decodeLossy).all
      (fun c => decide (c ∉ ['*', '?', '[', ']', '\\', '!'])) = true) : disk.HasPlainDirectories root := by
  intro below hd n hn c hc
  have hmem : root ++ below ∈ order := (ho.mem_iff _).2 ⟨List.prefix_append root below, hd⟩
  have hchar : c ∈ order.flatMap fun place => (place.drop root.length).flatMap Utf8.decodeLossy :=
    List.mem_flatMap.2 ⟨_, hmem, List.mem_flatMap.2 ⟨n, by rwa [List.drop_left], hc⟩⟩
  simpa using List.all_eq_true.1 h c hchar

theorem exists_line_of_mem_rulesAt {below : Place} {text : Text}
    (hp : ∀ n ∈ root ++ below, IsFileName n) (h : text ∈ disk.rulesAt names root (root ++ below)) :
    ∃ line, ruleOfLine? (Path.nameBelow below) line = some text := by
  have hname := Path.relativeTo_pathOf (fun n hn => hp n (List.mem_append_left below hn))
    fun n hn => hp n (List.mem_append_right root hn)
  rw [rulesAt, Gathered.ofDirectory, Gathered.rules_concat, List.flatMap_map, hname] at h
  obtain ⟨name, -, h⟩ := List.mem_flatMap.1 h
  unfold Gathered.ofFile at h
  split at h
  · split at h
    · obtain ⟨line, -, hline⟩ := List.mem_filterMap.1 h
      exact ⟨line, hline⟩
    · simp at h
  · simp [Gathered.none] at h

/-- No rule of a directory applies to a path unless the directory is shown as one on the way there. -/
theorem applicable_rulesAt {below : Place}
    (hd : (disk.top.at? (root ++ below)).any Node.isDirectory = true)
    (hplain : disk.HasPlainDirectories root) (hw : below.map Utf8.decodeLossy ∉ Rule.way path) :
    Ruleset.applicable path isDirectory (disk.rulesAt names root (root ++ below)) = [] := by
  obtain ⟨m, hm, -⟩ := (Option.any_eq_true _ _).1 hd
  have hnames : ∀ n ∈ root ++ below, IsFileName n := fun n hn => disk.sound.isFileName_of_mem hm hn
  have hbelow : ∀ n ∈ below, IsFileName n := fun n hn => hnames n (List.mem_append_right root hn)
  have hne : below ≠ [] := by
    intro he
    subst he
    exact hw List.mem_cons_self
  rw [Ruleset.applicable, List.filter_eq_nil_iff]
  intro rule hr ha
  obtain ⟨text, htext, hc⟩ := List.mem_filterMap.1 hr
  obtain ⟨line, hline⟩ := exists_line_of_mem_rulesAt hnames htext
  rw [Path.nameBelow, if_neg hne] at hline
  have hc : Rule.compile text = .ok rule := by
    cases hcompile : Rule.compile text with
    | ok r => simpa [hcompile, Except.toOption] using hc
    | error fault => simp [hcompile, Except.toOption] at hc
  have hslash : ∀ t ∈ below.map Utf8.decodeLossy, '/' ∉ t := by
    intro t ht
    obtain ⟨n, hn, rfl⟩ := List.mem_map.1 ht
    exact Path.slash_notMem_decodeLossy (hbelow n hn)
  have hnamesPlain : ∀ t ∈ below.map Utf8.decodeLossy, Segment.IsPlainName t := by
    intro t ht
    obtain ⟨n, hn, rfl⟩ := List.mem_map.1 ht
    refine ⟨mt Utf8.decodeLossy_eq_nil_iff.1 (hbelow n hn).nonempty, fun c hc => ?_⟩
    simpa using hplain below hd n hn c hc
  have hsplit := Path.splitOn_intercalate_shown hbelow hne
  have hroot : ['/'].intercalate (below.map Utf8.decodeLossy) ≠ Path.rootName := by
    intro he
    rw [he] at hsplit
    have hdot : ['.'] ∈ below.map Utf8.decodeLossy := by
      rw [← hsplit]
      decide
    obtain ⟨n, hn, hshown⟩ := List.mem_map.1 hdot
    exact (hbelow n hn).not_dot ((Utf8.decodeLossy_eq_iff (by decide)).1 hshown)
  have hanc := Rule.mem_ancestors_of_plainNames hslash hnamesPlain (by simpa using hne) hroot hline hc ha
  apply hw
  apply List.mem_cons_of_mem
  exact List.mem_map.2 ⟨_, hanc, hsplit⟩

section
variable {order others : List Place} (h : disk.IsTopDown root order)
include h

theorem IsTopDown.mem_onWay_iff {place : Place} :
    place ∈ onWay root path order ↔ ∃ below, place = root ++ below ∧ disk.IsOnWay root path below := by
  rw [onWay, List.mem_filter, h.mem_iff, decide_eq_true_eq]
  constructor
  · rintro ⟨⟨⟨below, rfl⟩, hd⟩, hway⟩
    rw [List.drop_left] at hway
    exact ⟨below, rfl, hd, hway⟩
  · rintro ⟨below, rfl, hd, hway⟩
    rw [List.drop_left]
    exact ⟨⟨List.prefix_append root below, hd⟩, hway⟩

theorem applicable_topDown (hplain : disk.HasPlainDirectories root) :
    Ruleset.applicable path isDirectory (order.flatMap (disk.rulesAt names root)) =
      Ruleset.applicable path isDirectory ((onWay root path order).flatMap (disk.rulesAt names root)) := by
  rw [Ruleset.applicable_flatMap, Ruleset.applicable_flatMap, onWay]
  apply flatMap_eq_flatMap_filter
  intro place hplace
  obtain ⟨⟨below, rfl⟩, hd⟩ := (h.mem_iff place).1 hplace
  rw [List.drop_left]
  by_cases hw : below.map Utf8.decodeLossy ∈ Rule.way path
  · rw [if_pos (decide_eq_true hw)]
  · rw [applicable_rulesAt hd hplain hw, ite_self]

end

/-! ### One way -/

theorem prefix_of_map_shown (hone : disk.HasOneWay root path) {a b : Place}
    (ha : disk.IsOnWay root path a) (hb : disk.IsOnWay root path b)
    (h : a.map Utf8.decodeLossy <+: b.map Utf8.decodeLossy) : a <+: b := by
  have hshown : a.map Utf8.decodeLossy = (b.take a.length).map Utf8.decodeLossy := by
    rw [List.map_take]
    simpa using List.prefix_iff_eq_take.1 h
  have habove : disk.IsOnWay root path (b.take a.length) := by
    refine ⟨?_, hshown ▸ ha.2⟩
    obtain ⟨es, hes⟩ := Node.any_isDirectory_iff.1 hb.1
    rw [← List.take_append_drop a.length b, ← List.append_assoc] at hes
    exact Node.any_isDirectory_iff.2 (Node.exists_directory_above hes)
  rw [hone a _ ha habove hshown]
  exact List.take_prefix _ _

/-- The directories on one way stand one inside the other. -/
theorem IsTopDown.pairwise_onWay {order : List Place} (h : disk.IsTopDown root order)
    (hone : disk.HasOneWay root path) : (onWay root path order).Pairwise fun a b => a <+: b ∧ a ≠ b := by
  apply (h.outer_first.filter _).imp_of_mem
  intro a b ha hb hba
  obtain ⟨x, rfl, hx⟩ := h.mem_onWay_iff.1 ha
  obtain ⟨y, rfl, hy⟩ := h.mem_onWay_iff.1 hb
  refine ⟨(List.prefix_append_right_inj root).2 ?_, fun he => hba (he ▸ List.prefix_rfl)⟩
  rcases List.prefix_or_prefix_of_prefix (Rule.prefix_of_mem_way hx.2) (Rule.prefix_of_mem_way hy.2) with hxy | hyx
  · exact prefix_of_map_shown hone hx hy hxy
  · exact absurd ((List.prefix_append_right_inj root).2 (prefix_of_map_shown hone hy hx hyx)) hba

/-- So in any order they come from the root down. -/
theorem IsTopDown.onWay_eq {order others : List Place} (h : disk.IsTopDown root order)
    (ho : disk.IsTopDown root others) (hone : disk.HasOneWay root path) :
    onWay root path order = onWay root path others := by
  have hfirst := h.pairwise_onWay hone
  have hsecond := ho.pairwise_onWay hone
  have hantisymm : ∀ a b : Place, a ∈ onWay root path order → b ∈ onWay root path others →
      a <+: b → b <+: a → a = b := fun a b _ _ hab hba => hab.eq_of_length_le hba.length_le
  apply List.Perm.eq_of_pairwise hantisymm (hfirst.imp And.left) (hsecond.imp And.left)
  rw [List.perm_ext_iff_of_nodup (hfirst.imp And.right) (hsecond.imp And.right)]
  intro place
  rw [h.mem_onWay_iff, ho.mem_onWay_iff]

/-- For a place of the tree these are the directories above it. -/
theorem isOnWay_nameBelow_iff {p below : Place} {es : List (Bytes × Node)}
    (hroot : disk.top.at? root = some (.directory es)) (hone : disk.HasOneWay root (Path.nameBelow p))
    (hp : (disk.top.at? (root ++ p)).isSome = true) :
    disk.IsOnWay root (Path.nameBelow p) below ↔ below <+: p.dropLast := by
  obtain ⟨m, hm⟩ := Option.isSome_iff_exists.1 hp
  have hnames : ∀ n ∈ p, IsFileName n :=
    fun n hn => disk.sound.isFileName_of_mem hm (List.mem_append_right root hn)
  have habove : ∃ inner, disk.top.at? (root ++ p.dropLast) = some (.directory inner) := by
    cases p using List.reverseRecOn with
    | nil => exact ⟨es, by rwa [List.dropLast_nil, List.append_nil]⟩
    | append_singleton front name =>
      rw [← List.append_assoc, Node.at?_append] at hm
      obtain ⟨above, habove, hm⟩ := Option.bind_eq_some_iff.1 hm
      obtain ⟨inner, _, rfl, -, -⟩ := Node.at?_cons_eq_some hm
      exact ⟨inner, by rwa [List.dropLast_concat]⟩
  have hlast : disk.IsOnWay root (Path.nameBelow p) p.dropLast :=
    ⟨Node.any_isDirectory_iff.2 habove, (Rule.mem_way_nameBelow hnames).2 List.prefix_rfl⟩
  constructor
  · intro h
    exact prefix_of_map_shown hone h hlast ((Rule.mem_way_nameBelow hnames).1 h.2)
  · rintro ⟨rest, hrest⟩
    obtain ⟨inner, hinner⟩ := habove
    rw [← hrest, ← List.append_assoc] at hinner
    refine ⟨Node.any_isDirectory_iff.2 (Node.exists_directory_above hinner), ?_⟩
    rw [Rule.mem_way_nameBelow hnames, ← hrest, List.map_append]
    exact List.prefix_append _ _

def walkedDirectories (n : Node) (root : Place) : List Place :=
  ((n.listing (fun _ => false) root).filter (·.2 = .directory)).map (·.1)

theorem kind_eq_directory_iff {m : Node} : m.kind = .directory ↔ m.isDirectory = true := by
  cases m <;> simp [Node.kind, Node.isDirectory]

theorem isTopDown_walkedDirectories {n : Node}
    (h : disk.top.at? root = some n) : disk.IsTopDown root (walkedDirectories n root) := by
  constructor
  · intro place
    simp only [walkedDirectories, List.mem_map, List.mem_filter, decide_eq_true_eq]
    constructor
    · intro hm
      obtain ⟨found, ⟨hfound, hkind⟩, rfl⟩ := hm
      obtain ⟨below, m, rfl, hm, -⟩ := (Node.mem_listing_iff (disk.sound.at h)).1 hfound
      refine ⟨List.prefix_append root below, ?_⟩
      rw [Node.at?_append, h, Option.bind_some, hm]
      exact kind_eq_directory_iff.1 hkind
    · intro hm
      obtain ⟨⟨below, rfl⟩, hd⟩ := hm
      rw [Node.at?_append, h, Option.bind_some] at hd
      obtain ⟨m, hm, hd⟩ := (Option.any_eq_true _ _).1 hd
      refine ⟨(root ++ below, m.kind), ⟨?_, kind_eq_directory_iff.2 hd⟩, rfl⟩
      exact (Node.mem_listing_iff (disk.sound.at h)).2 ⟨below, m, rfl, hm, fun _ _ _ _ _ => rfl⟩
  · rw [walkedDirectories, List.pairwise_map]
    exact (Node.pairwise_listing (disk.sound.at h)).filter _

theorem rules_gather {es : List (Bytes × Node)}
    (h : disk.top.at? root = some (.directory es)) :
    (disk.gather false names (pathOf root)).rules =
      (walkedDirectories (.directory es) root).flatMap (disk.rulesAt names root) := by
  rw [gather, walk_pathOf h, Gathered.rules_concat, walkedDirectories, List.flatMap_map,
    List.flatMap_map, List.flatMap_map]
  apply flatMap_eq_flatMap_filter
  intro found _
  by_cases hk : found.2 = .directory
  · simp [foundAt, Gathered.ofFound, hk, rulesAt]
  · simp [foundAt, Gathered.ofFound, hk, Gathered.none]

/-- For a path only the rules of the directories matter that are shown as those on the way to it. If no two of
these are shown alike they stand one inside the other, for a place of the tree they are the directories above
it, and their rules give the verdict that the rules of all directories give, whether these come in the order of
the walk or in any other order that puts each directory before those inside it. -/
theorem verdict_cascade {es : List (Bytes × Node)}
    (hroot : disk.top.at? root = some (.directory es)) (hplain : disk.HasPlainDirectories root)
    (names extra : List Text) (path : Text) (isDirectory : Bool) :
    let verdictBy found := (Ruleset.ofTexts (Ruleset.ordered extra found)).verdict path isDirectory
    let rules := disk.rulesAt names root
    let near := onWay root path (walkedDirectories (.directory es) root)
    verdictBy (disk.gather false names (pathOf root)).rules = verdictBy (near.flatMap rules) ∧
      (∀ order, disk.IsTopDown root order →
        verdictBy (order.flatMap rules) = verdictBy ((onWay root path order).flatMap rules)) ∧
      (disk.HasOneWay root path →
        near.Pairwise (fun a b => a <+: b ∧ a ≠ b) ∧
        (∀ p, (disk.top.at? (root ++ p)).isSome = true → path = Path.nameBelow p →
          ∀ place, place ∈ near ↔ ∃ front, place = root ++ front ∧ front <+: p.dropLast) ∧
        ∀ order, disk.IsTopDown root order → verdictBy (order.flatMap rules) = verdictBy (near.flatMap rules)) := by
  intro verdictBy rules near
  have hwalk := isTopDown_walkedDirectories hroot
  have htop : ∀ order, disk.IsTopDown root order →
      verdictBy (order.flatMap rules) = verdictBy ((onWay root path order).flatMap rules) :=
    fun order h => Ruleset.verdict_ordered_congr (applicable_topDown h hplain)
  refine ⟨?_, htop, fun hone => ⟨hwalk.pairwise_onWay hone, ?_, fun order h => ?_⟩⟩
  · rw [rules_gather hroot]
    exact htop _ hwalk
  · rintro p hp rfl place
    simp only [near, hwalk.mem_onWay_iff, isOnWay_nameBelow_iff hroot hone hp]
  · rw [htop order h, h.onWay_eq hwalk hone]

/-- A tree of which all names are texts has one way to every path. -/
theorem hasOneWay_of_isText (h : ∀ below, (disk.top.at? (root ++ below)).any Node.isDirectory = true →
    ∀ n ∈ below, Utf8.IsText n) : disk.HasOneWay root path :=
  fun a b ha hb => Utf8.eq_of_map_decodeLossy_eq (h a ha.1) (h b hb.1)

def nestedTree : Disk where
  top := .directory [(Utf8.ofString ".gitignore", .file (Utf8.ofString "x") 0),
    (Utf8.ofString "a", .directory [(Utf8.ofString ".gitignore", .file (Utf8.ofString "!/x") 0)]),
    (Utf8.ofString "b", .directory [(Utf8.ofString ".gitignore", .file (Utf8.ofString "y") 0)])]
  current := []
  sound := by decide

theorem isTopDown_nestedTree : nestedTree.IsTopDown [] [[], [Utf8.ofString "a"], [Utf8.ofString "b"]] := by
  have hplaces : walkedDirectories nestedTree.top [] = [[], [Utf8.ofString "a"], [Utf8.ofString "b"]] := by decide
  rw [← hplaces]
  exact isTopDown_walkedDirectories rfl

theorem verdict_cascade_nestedTree :
    let verdictBy found :=
      (Ruleset.ofTexts (Ruleset.ordered ["*.o".toList] found)).verdict "a/x".toList false
    let rules := nestedTree.rulesAt [] []
    let near := onWay [] "a/x".toList (walkedDirectories nestedTree.top [])
    let order := [[], [Utf8.ofString "b"], [Utf8.ofString "a"]]
    nestedTree.HasPlainDirectories [] ∧ nestedTree.HasOneWay [] "a/x".toList ∧
      near = [[], [Utf8.ofString "a"]] ∧
      verdictBy (nestedTree.gather false [] (pathOf [])).rules = verdictBy (near.flatMap rules) ∧
      nestedTree.IsTopDown [] order ∧ verdictBy (order.flatMap rules) = verdictBy (near.flatMap rules) := by
  intro verdictBy rules near order
  have horder : nestedTree.IsTopDown [] order := by
    refine ⟨fun place => ?_, by decide⟩
    rw [← isTopDown_nestedTree.mem_iff]
    simp [order, or_comm]
  have hplain : nestedTree.HasPlainDirectories [] := isTopDown_nestedTree.hasPlainDirectories (by decide)
  have hone : nestedTree.HasOneWay [] "a/x".toList := by
    refine hasOneWay_of_isText fun below hd => ?_
    have hall : ∀ place ∈ ([[], [Utf8.ofString "a"], [Utf8.ofString "b"]] : List Place), ∀ n ∈ place,
        Utf8.IsText n := by decide
    exact hall below ((isTopDown_nestedTree.mem_iff below).2 ⟨List.nil_prefix, hd⟩)
  obtain ⟨hgather, -, hcascade⟩ := verdict_cascade rfl hplain [] ["*.o".toList] "a/x".toList false
  obtain ⟨-, -, htop⟩ := hcascade hone
  exact ⟨hplain, hone, by decide, hgather, horder, htop order horder⟩

/-- A tree with two directories that are shown alike, one with an exclusion file and one with a file. -/
def alikeDirectories : Disk where
  top := .directory [([0xFE], .directory [(Utf8.ofString ".gitignore", .file (Utf8.ofString "x") 0)]),
    ([0xFF], .directory [(Utf8.ofString "x", .file [] 0)])]
  current := []
  sound := by decide

theorem rulesAt_alikeDirectories :
    alikeDirectories.rulesAt [] [] [] = [] ∧ alikeDirectories.rulesAt [] [] [[0xFF]] = [] ∧
      alikeDirectories.rulesAt [] [] [[0xFE]] = [Utf8.replacement :: "/**/x".toList] := by
  refine ⟨?_, ?_, ?_⟩
  · exact rulesAt_of_missing rfl rfl
  · exact rulesAt_of_missing rfl rfl
  · rw [rulesAt_of_file rfl rfl]
    decide +kernel

/-- The rule of the one directory excludes a file of the other. The directories above the file have no rules. -/
theorem verdict_cascade_ne_alikeDirectories :
    let place : Place := [[0xFF], Utf8.ofString "x"]
    let verdictBy found :=
      (Ruleset.ofTexts (Ruleset.ordered [] found)).verdict (Path.nameBelow place) false
    alikeDirectories.HasPlainDirectories [] ∧ alikeDirectories.top.at? place = some (.file [] 0) ∧
      (verdictBy (alikeDirectories.gather false [] (pathOf [])).rules).isExcluded = true ∧
      (verdictBy (([[], [[0xFF]]] : List Place).flatMap (alikeDirectories.rulesAt [] []))).isExcluded = false := by
  intro place verdictBy
  have hplaces : walkedDirectories alikeDirectories.top [] = [[], [[0xFE]], [[0xFF]]] := by decide
  have hwalk : alikeDirectories.IsTopDown [] [[], [[0xFE]], [[0xFF]]] := by
    rw [← hplaces]
    exact isTopDown_walkedDirectories rfl
  have hplain : alikeDirectories.HasPlainDirectories [] := hwalk.hasPlainDirectories (by decide)
  obtain ⟨htop, hnone, hrule⟩ := rulesAt_alikeDirectories
  have hname : Path.nameBelow place = Utf8.replacement :: "/x".toList := by decide
  have hgather : (alikeDirectories.gather false [] (pathOf [])).rules =
      [Utf8.replacement :: "/**/x".toList] := by
    have hwalked : (alikeDirectories.gather false [] (pathOf [])).rules =
        (walkedDirectories alikeDirectories.top []).flatMap (alikeDirectories.rulesAt [] []) := rules_gather rfl
    simp [hwalked, hplaces, htop, hnone, hrule]
  have hnear : ([[], [[0xFF]]] : List Place).flatMap (alikeDirectories.rulesAt [] []) = [] := by
    simp [htop, hnone]
  refine ⟨hplain, rfl, ?_, ?_⟩
  · simp only [verdictBy, hgather, hname]
    decide +kernel
  · simp only [verdictBy, hnear, hname]
    decide +kernel

end Disk
end Folio
