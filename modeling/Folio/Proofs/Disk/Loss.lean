import Folio.Disk.Edit
import Folio.Proofs.Disk.Step

/-!
# Files that are gone

A disk without links may lose files one after another. What is left of it is told by the places of these
files alone: paths that led to them lead nowhere, and all others lead where they led before.
-/
namespace Folio

namespace Node
variable {n : Node} {place q : Place} {content : Bytes} {modified : Int}

/-- The node without what is inside it. -/
def shallow : Node → Node
  | .directory _ => .directory []
  | n => n

theorem map_shallow_eq_empty_iff {o : Option Node} :
    o.map shallow = some empty ↔ ∃ es, o = some (.directory es) := by
  cases o with
  | none => simp
  | some n => cases n <;> simp [shallow, empty]

theorem map_shallow_eq_file_iff {o : Option Node} :
    o.map shallow = some (.file content modified) ↔ o = some (.file content modified) := by
  cases o with
  | none => simp
  | some n => cases n <;> simp [shallow]

theorem map_shallow_eq_link_iff {o : Option Node} {target : Bytes} :
    o.map shallow = some (.link target) ↔ o = some (.link target) := by
  cases o with
  | none => simp
  | some n => cases n <;> simp [shallow]

/-- Where a file was removed nothing is left; everything else stands where it stood. -/
theorem at?_remove (hs : n.Sound) (h : n.at? place = some (.file content modified)) (hne : place ≠ []) :
    ((remove place n).at? q).map shallow = if q = place then none else (n.at? q).map shallow := by
  induction place generalizing n q with
  | nil => exact absurd rfl hne
  | cons name rest ih =>
    obtain ⟨es, c, rfl, hc, hrest⟩ := at?_cons_eq_some h
    cases rest with
    | nil =>
      cases hrest
      cases q with
      | nil => rfl
      | cons k q =>
        have hl : List.lookup k (Index.erase name es) = if k = name then none else es.lookup k :=
          Index.find?_erase
        rw [remove, entries, at?_directory_cons, at?_directory_cons, hl]
        by_cases hk : k = name
        · subst hk
          rw [if_pos rfl, hc]
          cases q <;> simp [at?, child?, entries]
        · simp [hk]
    | cons r rest =>
      have hchild : (directory es).child? name = some c := hc
      cases q with
      | nil => simp [remove, hchild, at?, shallow]
      | cons k q =>
        have hl : List.lookup k (Index.insert name (remove (r :: rest) c) es) =
            if k = name then some (remove (r :: rest) c) else es.lookup k :=
          Index.find?_alter hs.ascending _ name k
        rw [remove, hchild, entries, at?_directory_cons, at?_directory_cons, hl]
        · by_cases hk : k = name
          · subst hk
            rw [if_pos rfl, hc, Option.bind_some, Option.bind_some, ih (hs.child hc) hrest (by simp)]
            simp
          · simp [hk]
        · simp

end Node

namespace Disk
open Folio.Path (slash dot)
variable {disk left : Disk} {gone : Place → Bool} {place here : Place} {content : Bytes} {modified : Int}
  {last : Bool} {path : Path} {n : Node}

/-- What is left of a disk on which the files at some places are gone. -/
structure Loses (disk : Disk) (gone : Place → Bool) (left : Disk) : Prop where
  current : left.current = disk.current
  file_of_gone : ∀ place, gone place = true →
    ∃ content modified, disk.top.at? place = some (.file content modified)
  at?_of_gone : ∀ place, gone place = true → left.top.at? place = none
  at?_of_not_gone : ∀ place, gone place = false →
    (left.top.at? place).map Node.shallow = (disk.top.at? place).map Node.shallow

/-- What a path shows at its end: a file as it is, and of a directory only that it is one. -/
def shown (disk : Disk) (path : Path) : Option Node :=
  (disk.find true path).toOption.map fun found => found.2.shallow

theorem shown_eq_some_iff : disk.shown path = some n ↔
    ∃ place, disk.resolve true path = .ok place ∧ (disk.top.at? place).map Node.shallow = some n := by
  rw [shown, Option.map_eq_some_iff]
  constructor
  · rintro ⟨⟨place, m⟩, hm, rfl⟩
    obtain ⟨hplace, hat⟩ := find_eq_ok_iff.1 (toOption_eq_some_iff.1 hm)
    exact ⟨place, hplace, by rw [hat]; rfl⟩
  · rintro ⟨place, hplace, hn⟩
    obtain ⟨m, hm, rfl⟩ := Option.map_eq_some_iff.1 hn
    exact ⟨(place, m), by rw [find_eq_ok_iff.2 ⟨hplace, hm⟩]; rfl, rfl⟩

namespace Loses

theorem linkFree (h : disk.Loses gone left) (hl : disk.top.LinkFree) : left.top.LinkFree := by
  intro place target ht
  cases hg : gone place with
  | true =>
    rw [h.at?_of_gone place hg] at ht
    cases ht
  | false =>
    rw [← Node.map_shallow_eq_link_iff, h.at?_of_not_gone place hg, Node.map_shallow_eq_link_iff] at ht
    exact hl place target ht

theorem directory_iff (h : disk.Loses gone left) : (∃ es, left.top.at? here = some (.directory es)) ↔
    ∃ es, disk.top.at? here = some (.directory es) := by
  cases hg : gone here with
  | true =>
    obtain ⟨content, modified, hfile⟩ := h.file_of_gone here hg
    simp [h.at?_of_gone here hg, hfile]
  | false => rw [← Node.map_shallow_eq_empty_iff, h.at?_of_not_gone here hg, Node.map_shallow_eq_empty_iff]

theorem isSome_at?_iff (h : disk.Loses gone left) : (left.top.at? place).isSome = true ↔
    (disk.top.at? place).isSome = true ∧ gone place = false := by
  cases hg : gone place with
  | true => simp [h.at?_of_gone place hg]
  | false =>
    have hsome := congrArg Option.isSome (h.at?_of_not_gone place hg)
    rw [Option.isSome_map, Option.isSome_map] at hsome
    simp [hsome]

/-- A step to a place whose file is gone fails, and every other step is what it was. -/
theorem advance_iff (h : disk.Loses gone left) {step : Step} : advance left.top here step = .ok place ↔
    advance disk.top here step = .ok place ∧ gone place = false := by
  rw [advance_eq_ok_iff, advance_eq_ok_iff, h.directory_iff, h.isSome_at?_iff]
  simp only [and_assoc]

theorem foldlM_advance_iff (h : disk.Loses gone left) {ss : List Step}
    (hh : ss = [] → gone here = false) : ss.foldlM (advance left.top) here = .ok place ↔
      ss.foldlM (advance disk.top) here = .ok place ∧ gone place = false := by
  induction ss generalizing here with
  | nil =>
    have hpure : ∀ top, [].foldlM (advance top) here = .ok here := fun _ => rfl
    rw [hpure, hpure, Except.ok.injEq]
    constructor
    · rintro rfl
      exact ⟨rfl, hh rfl⟩
    · exact fun hp => hp.1
  | cons step rest ih =>
    rw [List.foldlM_cons, List.foldlM_cons, bind_eq_ok_iff, bind_eq_ok_iff]
    constructor
    · rintro ⟨next, hstep, hrest⟩
      obtain ⟨hstep, hg⟩ := h.advance_iff.1 hstep
      obtain ⟨hrest, hplace⟩ := (ih fun _ => hg).1 hrest
      exact ⟨⟨next, hstep, hrest⟩, hplace⟩
    · rintro ⟨⟨next, hstep, hrest⟩, hplace⟩
      have hg : gone next = false := by
        cases rest with
        | nil =>
          cases hrest
          exact hplace
        | cons s rest =>
          -- nothing leads on from a file
          rw [List.foldlM_cons, bind_eq_ok_iff] at hrest
          obtain ⟨_, hs, -⟩ := hrest
          obtain ⟨hdirectory, -⟩ := advance_eq_ok_iff.1 hs
          rw [← Bool.not_eq_true]
          intro hg
          obtain ⟨content, modified, hfile⟩ := h.file_of_gone next hg
          simp [hfile] at hdirectory
      exact ⟨next, h.advance_iff.2 ⟨hstep, hg⟩, (ih fun _ => hg).2 ⟨hrest, hplace⟩⟩

theorem resolve_iff (h : disk.Loses gone left) (hl : disk.top.LinkFree) :
    left.resolve last path = .ok place ↔ disk.resolve last path = .ok place ∧ gone place = false := by
  rw [resolve_eq_ok_iff (h.linkFree hl), resolve_eq_ok_iff hl, h.current,
    h.foldlM_advance_iff fun he => absurd he (steps_ne_nil _)]
  exact and_assoc.symm

theorem shown_eq_some_iff (h : disk.Loses gone left) (hl : disk.top.LinkFree) :
    left.shown path = some n ↔ ∃ place, disk.resolve true path = .ok place ∧ gone place = false ∧
      (disk.top.at? place).map Node.shallow = some n := by
  rw [Disk.shown_eq_some_iff]
  simp only [h.resolve_iff hl, and_assoc]
  refine exists_congr fun place => and_congr_right fun _ => and_congr_right fun hg => ?_
  rw [h.at?_of_not_gone place hg]

theorem shown_eq (h : disk.Loses gone left) (hl : disk.top.LinkFree)
    (hg : ∀ place, disk.resolve true path = .ok place → gone place = false) :
    left.shown path = disk.shown path := by
  apply Option.ext
  intro n
  rw [h.shown_eq_some_iff hl, Disk.shown_eq_some_iff]
  refine exists_congr fun place => and_congr_right fun hplace => ?_
  simp [hg place hplace]

/-- A file that is gone already cannot be taken away. -/
theorem unlink_eq_self (h : disk.Loses gone left) (hl : disk.top.LinkFree)
    (hplace : disk.resolve true path = .ok place) (hg : gone place = true) : left.unlink path = left := by
  have hfail : ∀ found, left.find false path ≠ .ok found := by
    rintro ⟨found, m⟩ hfound
    rw [find_eq_find_true (h.linkFree hl), find_eq_ok_iff, h.resolve_iff hl, hplace] at hfound
    obtain ⟨⟨⟨⟩, hg'⟩, -⟩ := hfound
    rw [hg] at hg'
    cases hg'
  unfold Disk.unlink
  split
  next hfound => exact absurd hfound (hfail _)
  next hfound => exact absurd hfound (hfail _)
  next => rfl

theorem remove (h : disk.Loses gone left) (hat : disk.top.at? place = some (.file content modified))
    (hg : gone place = false) (hne : place ≠ []) :
    disk.Loses (fun p => decide (p = place) || gone p) (left.remove place) := by
  have hfile : left.top.at? place = some (.file content modified) := by
    rw [← Node.map_shallow_eq_file_iff, h.at?_of_not_gone place hg, hat]
    rfl
  have hleft : ∀ p, ((left.remove place).top.at? p).map Node.shallow =
      if p = place then none else (left.top.at? p).map Node.shallow :=
    fun p => Node.at?_remove left.sound hfile hne
  refine ⟨h.current, ?_, ?_, ?_⟩
  · intro p hp
    rw [Bool.or_eq_true, decide_eq_true_eq] at hp
    rcases hp with rfl | hp
    · exact ⟨content, modified, hat⟩
    · exact h.file_of_gone p hp
  · intro p hp
    have hshallow := hleft p
    rw [Bool.or_eq_true, decide_eq_true_eq] at hp
    rcases hp with rfl | hp
    · simpa using hshallow
    · simpa [h.at?_of_gone p hp] using hshallow
  · intro p hp
    rw [Bool.or_eq_false_iff, decide_eq_false_iff_not] at hp
    rw [hleft, if_neg hp.1, h.at?_of_not_gone p hp.2]

theorem unlink (h : disk.Loses gone left) (hl : disk.top.LinkFree)
    (hf : disk.find true path = .ok (place, .file content modified)) :
    disk.Loses (fun p => decide (p = place) || gone p) (left.unlink path) := by
  obtain ⟨hplace, hat⟩ := find_eq_ok_iff.1 hf
  cases hg : gone place with
  | true =>
    have hsame : (fun p => decide (p = place) || gone p) = gone := by
      funext p
      by_cases hp : p = place
      · simp [hp, hg]
      · simp [hp]
    rwa [hsame, h.unlink_eq_self hl hplace hg]
  | false =>
    have hfile : left.top.at? place = some (.file content modified) := by
      rw [← Node.map_shallow_eq_file_iff, h.at?_of_not_gone place hg, hat]
      rfl
    have hfound : left.find true path = .ok (place, .file content modified) :=
      find_eq_ok_iff.2 ⟨(h.resolve_iff hl).2 ⟨hplace, hg⟩, hfile⟩
    have hunlink : left.unlink path = left.remove place := by
      rw [Disk.unlink, find_eq_find_true (h.linkFree hl), hfound]
    rw [hunlink]
    exact h.remove hat hg (ne_nil_of_find hl hf)

end Loses
end Disk
end Folio
