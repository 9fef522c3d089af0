import Folio.Proofs.Collection.Pruning
import Folio.Proofs.Disk.Cleaning
import Folio.Proofs.Target.Way
import Folio.Proofs.Walk.Files

/-!
# Kept files on the disk

A target that is a file is cleaned before it is looked at, and a walk comes to its files through directories.
What a search pattern finds is looked at first and cleaned afterwards. So all that a collection keeps are
files of the disk, except where cleaning cancels the name of a link: then the path may lead to anything.
-/
namespace Folio.Collector
open Disk
variable {c : Collector} {disk : Disk} {target : Text} {targets : List Text} {p q : Path}

structure FindsFile (c : Collector) (disk : Disk) (target : Text) (q : Path) : Prop where
  not_isFile : disk.isFile (c.resolve target) = false
  not_isDirectory : disk.isDirectory (c.resolve target) = false
  found : ∃ paths, Target.expand disk (Target.patternOf c.workingDirectory target) = .ok paths ∧ q ∈ paths
  isFile : disk.isFile q = true

/-- The path is what cleaning makes of a file that a search pattern finds, with a name of a link cancelled. -/
def IsStray (c : Collector) (disk : Disk) (targets : List Text) (p : Path) : Prop :=
  ∃ target ∈ targets, ∃ q, c.FindsFile disk target q ∧ disk.CancelsLink q ∧ q.clean = p

theorem isFile_clean (hcancel : ¬ disk.CancelsLink q) (h : disk.isFile q = true) :
    disk.isFile q.clean = true := by
  unfold isFile at h
  split at h
  next place content modified hfind => rw [isFile, find_clean hcancel hfind]
  next => cases h

theorem isFile_of_mem_walked {start : Path}
    (h : .file p ∈ c.walked disk start) : disk.isFile p = true := by
  have hpast : .file p ∈ c.walkedPast c.passesOver disk start := h
  obtain ⟨kind, hm, hcounts⟩ := mem_walkedPast_iff.1 hpast
  exact isFile_of_mem_walk hm hcounts

theorem mem_lookUp_of_findsFile (h : c.FindsFile disk target q) : .file q.clean ∈ c.lookUp disk target := by
  obtain ⟨paths, hpaths, hq⟩ := h.found
  rw [lookUp, h.not_isFile, h.not_isDirectory]
  exact mem_searched_iff.2 ⟨paths, hpaths, q, hq, h.isFile, rfl⟩

/-- What turns up for a target is a file, or it is the cleaned path of a file that a search finds. -/
theorem isFile_or_findsFile (h : .file p ∈ c.lookUp disk target) :
    disk.isFile p = true ∨ ∃ q, c.FindsFile disk target q ∧ q.clean = p := by
  rw [lookUp] at h
  cases hfile : disk.isFile (c.resolve target) with
  | true =>
    rw [hfile] at h
    obtain rfl : p = c.resolve target := by simpa using h
    exact .inl hfile
  | false =>
    cases hdirectory : disk.isDirectory (c.resolve target) with
    | true =>
      rw [hfile, hdirectory] at h
      exact .inl (isFile_of_mem_walked h)
    | false =>
      rw [hfile, hdirectory] at h
      obtain ⟨paths, hpaths, q, hq, hisFile, hp⟩ := mem_searched_iff.1 h
      exact .inr ⟨q, ⟨hfile, hdirectory, ⟨paths, hpaths, hq⟩, hisFile⟩, hp⟩

theorem isFile_or_isStray_of_mem_finds (h : .file p ∈ c.finds disk targets) :
    disk.isFile p = true ∨ c.IsStray disk targets p := by
  rw [finds] at h
  split at h
  · exact .inl (isFile_of_mem_walked h)
  · obtain ⟨target, htarget, h⟩ := List.mem_flatMap.1 h
    refine (isFile_or_findsFile h).elim .inl ?_
    rintro ⟨q, hq, rfl⟩
    by_cases hcancel : disk.CancelsLink q
    · exact .inr ⟨target, htarget, q, hq, hcancel, rfl⟩
    · exact .inl (isFile_clean hcancel hq.isFile)

theorem mem_finds_of_isStray (h : c.IsStray disk targets p) : .file p ∈ c.finds disk targets := by
  obtain ⟨target, htarget, q, hq, -, rfl⟩ := h
  rw [finds, if_neg (by simpa using List.ne_nil_of_mem htarget)]
  exact List.mem_flatMap.2 ⟨target, htarget, mem_lookUp_of_findsFile hq⟩

/-- Each kept file is a file of the disk, unless a search pattern found it on a way that steps up out of a
link. What is found on such a way is kept under its cleaned path if the rules let that path through, whatever
the path leads to, or another file is kept in its place that is shown like it. -/
theorem isFile_or_isStray :
    let files := (c.collect disk targets).files
    (∀ f ∈ files, disk.isFile f.path = true ∨ c.IsStray disk targets f.path) ∧
      ∀ p, c.IsStray disk targets p → (c.rules.verdict (c.nameOf p) false).isExcluded = false →
        ⟨p, c.nameOf p⟩ ∈ files ∨
          ∃ q ≠ p, .file q ∈ c.finds disk targets ∧ q.shown = p.shown ∧ ⟨q, c.nameOf q⟩ ∈ files := by
  intro files
  constructor
  · intro f hf
    exact isFile_or_isStray_of_mem_finds (mem_letThrough_of_mem_files hf).1
  · intro p hp hx
    have hlet : ⟨p, c.nameOf p⟩ ∈ c.letThrough (c.finds disk targets) :=
      mem_letThrough_iff.2 ⟨mem_finds_of_isStray hp, rfl, hx⟩
    obtain ⟨⟨q, name⟩, hlast, hshown⟩ := Candidate.exists_isLast hlet
    obtain ⟨hfound, hname, -⟩ := mem_letThrough_iff.1 hlast.mem
    have hkept : ⟨q, c.nameOf q⟩ ∈ files := mem_files_iff.2 (hname ▸ hlast)
    by_cases hq : q = p
    · exact .inl (hq ▸ hkept)
    · exact .inr ⟨q, hq, hfound, hshown, hkept⟩

/-- A directory `w` with a file `x` and an empty directory `e` below `d`, and a link to `e` next to `d`. -/
def awayLink : Disk where
  top := .directory [(Utf8.ofString "w", .directory [
    (Utf8.ofString "d", .directory [(Utf8.ofString "e", .directory []), (Utf8.ofString "x", .file [] 0)]),
    (Utf8.ofString "l", .link (Utf8.ofString "d/e"))])]
  current := []
  sound := by decide

def awayCollector : Collector := ⟨pathOf [Utf8.ofString "w"], pathOf [Utf8.ofString "w"], ⟨[]⟩, false⟩

/-- The cleaned path of what the link and a step up lead to. -/
def awayPath : Path := pathOf [Utf8.ofString "w", Utf8.ofString "x"]

theorem resolve_awayLink : awayCollector.resolve "l/../x".toList = awayPath := by decide

/-- Through the link the way goes on below `d`. -/
theorem follow_awayLink (rest : List Step) : follow awayLink.top true maxLinks []
      (.stay :: .into (Utf8.ofString "w") :: .into (Utf8.ofString "l") :: rest) =
    follow awayLink.top true 39 [Utf8.ofString "w", Utf8.ofString "d", Utf8.ofString "e"] rest := by
  have htarget : steps (Utf8.ofString "d/e") = [.into (Utf8.ofString "d"), .into (Utf8.ofString "e")] := by
    decide
  calc
    _ = follow awayLink.top true maxLinks []
        (.into (Utf8.ofString "w") :: .into (Utf8.ofString "l") :: rest) := by
      rw [follow]
      rfl
    _ = follow awayLink.top true maxLinks [Utf8.ofString "w"] (.into (Utf8.ofString "l") :: rest) := by
      rw [follow]
      rfl
    _ = follow awayLink.top true 39 [Utf8.ofString "w"] (steps (Utf8.ofString "d/e") ++ rest) := by
      rw [follow]
      cases rest <;> rfl
    _ = follow awayLink.top true 39 [Utf8.ofString "w", Utf8.ofString "d"]
        (.into (Utf8.ofString "e") :: rest) := by
      rw [htarget, List.cons_append, follow]
      rfl
    _ = _ := by
      rw [follow]
      rfl

theorem find_awayLink_link : awayLink.find true (pathOf [Utf8.ofString "w", Utf8.ofString "l"]) =
    .ok ([Utf8.ofString "w", Utf8.ofString "d", Utf8.ofString "e"], .directory []) := by
  have hsteps : steps (pathOf [Utf8.ofString "w", Utf8.ofString "l"]).bytes =
      [.stay, .into (Utf8.ofString "w"), .into (Utf8.ofString "l")] := by decide
  have hstart : startOf awayLink.current (pathOf [Utf8.ofString "w", Utf8.ofString "l"]).bytes = [] := rfl
  refine find_eq_ok_iff.2 ⟨?_, rfl⟩
  rw [Disk.resolve, if_neg (by decide), if_neg (by decide), hsteps, hstart, follow_awayLink, follow]

theorem find_awayLink_file : awayLink.find true (.ofText "/w/l/../x".toList) =
    .ok ([Utf8.ofString "w", Utf8.ofString "d", Utf8.ofString "x"], .file [] 0) := by
  have hsteps : steps (Path.ofText "/w/l/../x".toList).bytes =
      [.stay, .into (Utf8.ofString "w"), .into (Utf8.ofString "l"), .up, .into (Utf8.ofString "x")] := by
    decide
  have hstart : startOf awayLink.current (Path.ofText "/w/l/../x".toList).bytes = [] := by decide
  refine find_eq_ok_iff.2 ⟨?_, rfl⟩
  rw [Disk.resolve, if_neg (by decide), if_neg (by decide), hsteps, hstart, follow_awayLink]
  calc
    _ = follow awayLink.top true 39 [Utf8.ofString "w", Utf8.ofString "d"] [.into (Utf8.ofString "x")] := by
      rw [follow]
      rfl
    _ = .ok [Utf8.ofString "w", Utf8.ofString "d", Utf8.ofString "x"] := by
      rw [follow]
      change follow awayLink.top true 39 [Utf8.ofString "w", Utf8.ofString "d", Utf8.ofString "x"] [] = _
      rw [follow]

theorem find_awayPath (last : Bool) : awayLink.find last awayPath = .error .missing := by
  have hw : awayLink.find true (pathOf [Utf8.ofString "w"]) = .ok ([Utf8.ofString "w"], _) :=
    find_pathOf rfl (by simp) (by simp)
  have hname : IsFileName (Utf8.ofString "x") := by decide
  exact find_join_missing hw hname rfl last

def awayPieces : List Target.Piece :=
  [[.single (.literal 'l')], [.single (.literal '.'), .single (.literal '.')], [.single (.literal 'x')]]

theorem onward_awayPieces : Target.onward awayLink false awayPieces (pathOf [Utf8.ofString "w"]) true =
    [.ofText "/w/l/../x".toList] := by
  have hlink : Target.leadsOn awayLink ['l'] (pathOf [Utf8.ofString "w", Utf8.ofString "l"]) true = true := by
    have hfind : awayLink.find false (pathOf [Utf8.ofString "w", Utf8.ofString "l"]) = .ok (_, .link _) :=
      find_pathOf rfl (by simp) (by simp)
    rw [Target.leadsOn, if_neg (by decide), hfind, find_awayLink_link]
    rfl
  have hdirectory : awayLink.isDirectory (pathOf [Utf8.ofString "w", Utf8.ofString "l"]) = true := by
    rw [isDirectory, find_awayLink_link]
  have hfile (d : Bool) : Target.leadsOn awayLink ['x'] (.ofText "/w/l/../x".toList) d = true := by
    rw [Target.leadsOn, if_neg (by decide), find_awayLink_file]
    rfl
  have hup : (pathOf [Utf8.ofString "w", Utf8.ofString "l"]).join (Utf8.encode ['.', '.']) =
      .ofText "/w/l/..".toList := by decide
  have hdown : (Path.ofText "/w/l/..".toList).join (Utf8.encode ['x']) = .ofText "/w/l/../x".toList := by decide
  rw [awayPieces, Target.onward, if_neg (by decide), Target.search_literal rfl (by decide) hlink,
    Target.onward, if_neg (by decide), hdirectory, Target.search_literal rfl hup rfl,
    Target.onward, if_neg (by decide), Target.search_literal rfl hdown (hfile _)]
  rfl

theorem expand_awayLink :
    Target.expand awayLink (Target.patternOf awayCollector.workingDirectory "l/../x".toList) =
      .ok [.ofText "/w/l/../x".toList] := by
  have htexts : Target.componentTexts "l/../x".toList = [['l'], "..".toList, ['x']] := by decide
  have hparse : [['l'], "..".toList, ['x']].mapM Glob.parse = .ok awayPieces := by
    simp [Glob.parse, Glob.parseFrom]
    rfl
  have hwhole : (Glob.parse "l/../x".toList).toOption.isSome = true := by
    simp [Glob.parse, Glob.parseFrom]
    rfl
  have hat : awayLink.top.at? [Utf8.ofString "w"] = some (.directory _) := rfl
  have hway : Target.onward awayLink false ([Utf8.ofString "w"].map Target.escaped ++ awayPieces)
      (pathOf []) true = Target.onward awayLink false awayPieces (pathOf [Utf8.ofString "w"]) true :=
    Target.onward_open hat (by decide) (by decide) awayPieces
  have hexpand := Target.toOption_expand hat (by simp) (by decide : "l/../x".toList.head? ≠ some '/')
  rw [if_pos hwhole, htexts, hparse] at hexpand
  exact toOption_eq_some_iff.1 (hexpand.trans (congrArg some (hway.trans onward_awayPieces)))

theorem findsFile_awayLink :
    awayCollector.FindsFile awayLink "l/../x".toList (.ofText "/w/l/../x".toList) where
  not_isFile := by rw [isFile, resolve_awayLink, find_awayPath]
  not_isDirectory := by rw [isDirectory, resolve_awayLink, find_awayPath]
  found := ⟨_, expand_awayLink, List.mem_singleton.2 rfl⟩
  isFile := by rw [isFile, find_awayLink_file]

theorem isStray_awayLink : awayCollector.IsStray awayLink ["l/../x".toList] awayPath := by
  have hlink : awayLink.IsLink (pathOf [Utf8.ofString "w", Utf8.ofString "l"]) := by
    refine ⟨[Utf8.ofString "w", Utf8.ofString "l"], Utf8.ofString "d/e", ?_⟩
    exact find_pathOf rfl (by simp) (by simp)
  have hcancel : awayLink.CancelsLink (.ofText "/w/l/../x".toList) :=
    ⟨[.root, .name (Utf8.ofString "w"), .name (Utf8.ofString "l")], ⟨[.name (Utf8.ofString "x")], rfl⟩, hlink⟩
  exact ⟨_, List.mem_singleton.2 rfl, _, findsFile_awayLink, hcancel, rfl⟩

/-- A search keeps nothing but the file that it finds, under a path that leads nowhere. -/
theorem finds_awayLink : awayCollector.finds awayLink ["l/../x".toList] = [.file awayPath] := by
  have h := findsFile_awayLink
  rw [finds, if_neg (by simp), List.flatMap_singleton, lookUp, h.not_isFile, h.not_isDirectory]
  simp only [Bool.false_eq_true, if_false, searched, expand_awayLink]
  rw [List.filter_cons_of_pos h.isFile, List.filter_nil]
  rfl

theorem isFile_or_isStray_awayLink :
    let files := (awayCollector.collect awayLink ["l/../x".toList]).files
    awayCollector.IsStray awayLink ["l/../x".toList] awayPath ∧ ⟨awayPath, ['x']⟩ ∈ files ∧
      awayLink.isFile awayPath = false := by
  intro files
  obtain ⟨-, hstrays⟩ := @isFile_or_isStray awayCollector awayLink ["l/../x".toList]
  refine ⟨isStray_awayLink, ?_, by rw [isFile, find_awayPath]⟩
  obtain hkept | ⟨q, hq, hfound, -⟩ := hstrays awayPath isStray_awayLink rfl
  · exact hkept
  · rw [finds_awayLink] at hfound
    cases List.mem_singleton.1 hfound
    exact absurd rfl hq

/-- By way of the link a file is kept under a path that leads nowhere. -/
theorem exists_kept_not_isFile :
    ⟨awayPath, ['x']⟩ ∈ (awayCollector.collect awayLink ["l/../x".toList]).files ∧
      awayLink.isFile awayPath = false ∧ awayLink.exists? awayPath = false := by
  refine ⟨?_, by rw [isFile, find_awayPath], by rw [exists?, find_awayPath, Except.isOk, Except.toBool]⟩
  rw [files_collect, finds_awayLink]
  decide +kernel

end Folio.Collector
