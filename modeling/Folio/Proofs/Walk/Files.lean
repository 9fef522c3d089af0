import Folio.Proofs.Disk.Travel
import Folio.Proofs.Walk.Pruned

/-!
# The files of a walk

A walk takes for a file only what is one on the disk: the names of the entries that it comes through lead
down to the entry, and a link is looked up before anything is made of it.
-/
namespace Folio

/-- Each file that a visit meets is a file of the disk. -/
def Visit.MeetsFiles (disk : Disk) (v : Visit) : Prop :=
  ∀ prune q, .ok ⟨q, .file⟩ ∈ v.flatten prune → disk.isFile q = true

theorem Visit.meetsFiles_entry {disk : Disk} {path : Path} {kind : Kind} {inside : List Visit}
    (hk : kind = .file → disk.isFile path = true) (h : ∀ v ∈ inside, v.MeetsFiles disk) :
    (Visit.entry path kind inside).MeetsFiles disk := by
  intro prune q hq
  rw [flatten, List.mem_cons] at hq
  rcases hq with hq | hq
  · cases hq
    exact hk rfl
  · obtain ⟨v, hv, -, hq⟩ := mem_flattenInside_iff.1 hq
    exact h v hv prune q hq

namespace Node
open Disk
variable {disk : Disk} {n : Node} {shows : Bytes → Bool} {onLink : List Ancestor → Path → Visit}
  {way : List Ancestor} {place : Place} {path : Path} {es : List (Bytes × Node)} {v : Visit}

theorem mem_visitEntries (h : v ∈ visitEntries shows onLink way place path es) :
    ∃ e ∈ es, v = e.2.visit shows onLink way (place ++ [e.1]) (path.join e.1) := by
  induction es with
  | nil => cases h
  | cons e es ih =>
    rw [visitEntries] at h
    split at h
    · rcases List.mem_cons.1 h with rfl | h
      · exact ⟨e, List.mem_cons_self, rfl⟩
      · obtain ⟨e', he, hv⟩ := ih h
        exact ⟨e', List.mem_cons_of_mem e he, hv⟩
    · obtain ⟨e', he, hv⟩ := ih h
      exact ⟨e', List.mem_cons_of_mem e he, hv⟩

/-- The path of a directory leads on to the entries, so that each may be looked at by itself. -/
theorem meetsFiles_of_mem_visitEntries (hs : (directory es).Sound)
    (h : disk.find true path = .ok (place, .directory es))
    (hes : ∀ e ∈ es, ∀ place path, (e.2.isLink = false → disk.find true path = .ok (place, e.2)) →
      (e.2.visit shows onLink way place path).MeetsFiles disk)
    (hv : v ∈ visitEntries shows onLink way place path es) : v.MeetsFiles disk := by
  obtain ⟨e, he, rfl⟩ := mem_visitEntries hv
  exact hes e he _ _ fun hlink => find_join h (hs.isFileName e he) (hs.lookup_iff.2 he) (by simp [hlink])

theorem meetsFiles_visit (hs : n.Sound) (hlink : ∀ way q, (onLink way q).MeetsFiles disk)
    (h : n.isLink = false → disk.find true path = .ok (place, n)) :
    (n.visit shows onLink way place path).MeetsFiles disk := by
  induction n using inductionOn generalizing way place path with
  | file content modified =>
    refine Visit.meetsFiles_entry (fun _ => ?_) (by simp)
    rw [isFile, h rfl]
  | link target => exact hlink way path
  | directory es ih =>
    refine Visit.meetsFiles_entry (by simp) fun v hv => ?_
    exact meetsFiles_of_mem_visitEntries hs (h rfl) (fun e he _ _ => ih e he (hs.of_mem he)) hv

end Node

namespace Disk
variable {disk : Disk} {path : Path} {followLinks : Bool} {prune : Path → Bool}

theorem meetsFiles_fault (f : WalkFault) : (Visit.fault f).MeetsFiles disk := by
  intro prune q hq
  simp [Visit.flatten] at hq

theorem meetsFiles_ofLink (way : List Ancestor) (path : Path) :
    ((fun _ => Visit.ofLink) way path).MeetsFiles disk :=
  Visit.meetsFiles_entry (by simp) (by simp)

theorem meetsFiles_visitLink (links : Nat) (way : List Ancestor) (path : Path) :
    (disk.visitLink links way path).MeetsFiles disk := by
  induction links generalizing way path with
  | zero => exact meetsFiles_fault _
  | succ links ih =>
    rw [visitLink]
    split
    · exact meetsFiles_fault _
    next place node hfind =>
      have hnode : (node.visit (fun _ => true) (disk.visitLink links) way place path).MeetsFiles disk :=
        Node.meetsFiles_visit (disk.sound.at (at?_of_find hfind)) ih fun _ => hfind
      split
      · split
        · exact meetsFiles_fault _
        · exact hnode
      · exact hnode

theorem meetsFiles_visit (followLinks : Bool) (path : Path) :
    (disk.visit followLinks path).MeetsFiles disk := by
  unfold visit
  split
  · exact meetsFiles_fault _
  next place node hfind =>
    have hnode := disk.sound.at (at?_of_find hfind)
    have hreach : node.isLink = false → disk.find true path = .ok (place, node) :=
      find_true_of_find_false hfind
    split
    · split
      · exact meetsFiles_visitLink _ _ _
      · exact Node.meetsFiles_visit hnode (meetsFiles_visitLink maxLinks) hreach
    · split
      · split
        · exact meetsFiles_fault _
        next found n hfound =>
          have hn := disk.sound.at (at?_of_find hfound)
          refine Visit.meetsFiles_entry (by simp) fun v hv => ?_
          cases n with
          | directory es =>
            exact Node.meetsFiles_of_mem_visitEntries hn hfound
              (fun e he _ _ => Node.meetsFiles_visit (hn.of_mem he) meetsFiles_ofLink) hv
          | _ => simp [Node.entries, visitEntries] at hv
      · exact Node.meetsFiles_visit hnode meetsFiles_ofLink hreach

theorem isFile_of_mem_walk {start : Path} {e : Entry}
    (h : .ok e ∈ disk.walk followLinks prune start) (hcounts : disk.countsAsFile e = true) :
    disk.isFile e.path = true := by
  obtain ⟨q, kind⟩ := e
  cases kind with
  | file => exact meetsFiles_visit followLinks start prune q h
  | directory => simp [countsAsFile] at hcounts
  | link => simpa [countsAsFile] using hcounts

end Disk
end Folio
