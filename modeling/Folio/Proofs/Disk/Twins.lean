import Folio.Proofs.Path.Inside

/-!
# Copies of a tree

Two disks may host copies of one tree. Paths that go on alike from the places of the two copies are twins:
what the one leads to the other leads to as well.
-/
namespace Folio.Disk
open Folio.Path (slash dot)
variable {disk₁ disk₂ : Disk} {loc₁ loc₂ : Place} {tree : Node} {depth : Nat} {p q : Path} {last : Bool}
  {name : Bytes}

/-- The paths go on alike from the two places, to the same place in each tree, at least `depth`
directories down. -/
def Twins (loc₁ loc₂ : Place) (depth : Nat) (p q : Path) : Prop :=
  ∃ rest, IsInside rest ∧ depth ≤ (placeIn rest).length ∧ p = inside loc₁ rest ∧ q = inside loc₂ rest

/-- The depth after a step, made at a depth that is at least the given one. -/
def Step.depthAfter (depth : Nat) : Step → Nat
  | .stay => depth
  | .up => depth - 1
  | .into _ => depth + 1

theorem Step.depthAfter_le {here : Place} (h : depth ≤ here.length) (step : Step) :
    step.depthAfter depth ≤ (step.after here).length := by
  cases step with
  | stay => exact h
  | up =>
    rw [Step.depthAfter, Step.after, List.length_dropLast]
    omega
  | into name =>
    rw [Step.depthAfter, Step.after, List.length_append]
    exact Nat.succ_le_succ h

theorem Twins.mono {less : Nat} (ht : Twins loc₁ loc₂ depth p q) (hle : less ≤ depth) :
    Twins loc₁ loc₂ less p q := by
  obtain ⟨rest, hr, hd, hp, hq⟩ := ht
  exact ⟨rest, hr, Nat.le_trans hle hd, hp, hq⟩

section
variable (h₁ : disk₁.Hosts loc₁ tree) (h₂ : disk₂.Hosts loc₂ tree)
include h₁ h₂

theorem Twins.join (ht : Twins loc₁ loc₂ depth p q) (hn : slash ∉ name)
    (hup : Step.ofPiece name = .up → 0 < depth) :
    Twins loc₁ loc₂ ((Step.ofPiece name).depthAfter depth) (p.join name) (q.join name) := by
  obtain ⟨rest, hr, hd, rfl, rfl⟩ := ht
  have hhead : name.head? ≠ some slash := fun h => hn (List.mem_of_mem_head? h)
  refine ⟨joinTail rest name, hr.joinTail hn fun hs => ?_, ?_, h₁.join_inside hhead, h₂.join_inside hhead⟩
  · have hdepth := hup hs
    exact List.ne_nil_of_length_pos (by omega)
  · rw [placeIn_joinTail hn]
    exact Step.depthAfter_le hd _

theorem Twins.join_fileName (ht : Twins loc₁ loc₂ depth p q) (hn : IsFileName name) :
    Twins loc₁ loc₂ (depth + 1) (p.join name) (q.join name) := by
  have hnext := ht.join h₁ h₂ hn.no_slash (by simp [hn.ofPiece])
  rwa [hn.ofPiece] at hnext

/-- Twins lead to the same, each seen from the place of its own copy. -/
theorem Twins.exists_find (ht : Twins loc₁ loc₂ depth p q) : ∃ found : Except Fault (Place × Node),
    (∀ last, disk₁.find last p = (fun f => (loc₁ ++ f.1, f.2)) <$> found) ∧
    (∀ last, disk₂.find last q = (fun f => (loc₂ ++ f.1, f.2)) <$> found) ∧
    ∀ place n, found = .ok (place, n) → tree.at? place = some n := by
  obtain ⟨rest, hr, -, rfl, rfl⟩ := ht
  exact ⟨locate tree rest, fun _ => h₁.find_inside hr, fun _ => h₂.find_inside hr,
    fun _ _ h => (locate_eq_ok h).2⟩

theorem Twins.isFile_eq (ht : Twins loc₁ loc₂ depth p q) : disk₁.isFile p = disk₂.isFile q := by
  obtain ⟨found, hp, hq, -⟩ := ht.exists_find h₁ h₂
  rw [isFile, isFile, hp, hq]
  cases found with
  | error fault => rfl
  | ok f =>
    obtain ⟨place, n⟩ := f
    cases n <;> rfl

theorem Twins.isDirectory_eq (ht : Twins loc₁ loc₂ depth p q) :
    disk₁.isDirectory p = disk₂.isDirectory q := by
  obtain ⟨found, hp, hq, -⟩ := ht.exists_find h₁ h₂
  rw [isDirectory, isDirectory, hp, hq]
  cases found with
  | error fault => rfl
  | ok f =>
    obtain ⟨place, n⟩ := f
    cases n <;> rfl

theorem Twins.isOk_find_eq (ht : Twins loc₁ loc₂ depth p q) (last : Bool) :
    (disk₁.find last p).isOk = (disk₂.find last q).isOk := by
  obtain ⟨found, hp, hq, -⟩ := ht.exists_find h₁ h₂
  rw [hp, hq]
  cases found <;> rfl

end

theorem follow_up (top : Node) (last : Bool) (links : Nat) (here : Place) :
    (∃ es m, top.at? here = some (.directory es) ∧
      follow top last links here [.up] = .ok here.dropLast ∧
      top.at? here.dropLast = some m ∧ m.isDirectory = true) ∨
    (top.at? here).any Node.isDirectory = false ∧
      follow top last links here [.up] = .error .notDirectory := by
  rw [follow]
  cases h : top.at? here with
  | none => exact .inr ⟨rfl, rfl⟩
  | some n =>
    cases n with
    | directory es =>
      obtain ⟨m, hm, hd⟩ := at?_dropLast h rfl
      exact .inl ⟨es, m, rfl, by dsimp only; rw [follow], hm, hd⟩
    | _ => exact .inr ⟨rfl, rfl⟩

theorem isFile_and_isDirectory_of_find {disk : Disk} {place : Place} {m : Node}
    (h : disk.find true p = .ok (place, m)) (hd : m.isDirectory = true) :
    disk.isDirectory p = true ∧ disk.isFile p = false := by
  rw [isDirectory, isFile, h]
  cases m with
  | directory es => exact ⟨rfl, rfl⟩
  | _ => cases hd

theorem isFile_and_isDirectory_of_error {disk : Disk} (fault : Fault) (h : disk.find true p = .error fault) :
    disk.isDirectory p = false ∧ disk.isFile p = false := by
  rw [isDirectory, isFile, h]
  exact ⟨rfl, rfl⟩

/-- A step up from a path inside a tree leads to a directory or nowhere, whatever stands above the tree. -/
theorem exists_join_up {rest : Bytes} (hr : IsInside rest) (tree : Node) : ∃ b : Bool,
    ∀ (disk : Disk) (loc : Place), disk.Hosts loc tree →
      disk.isDirectory ((inside loc rest).join [dot, dot]) = b ∧
        disk.isFile ((inside loc rest).join [dot, dot]) = false := by
  obtain ⟨t, ht, -, hstays⟩ := exists_joinTail_eq rest [dot, dot]
  have hsteps : stepsIn (joinTail rest [dot, dot]) = stepsIn t ++ [.up] := by
    rw [ht, stepsIn_append]
    rfl
  have hresolve : ∀ (disk : Disk) (loc : Place), disk.Hosts loc tree →
      disk.resolve true ((inside loc rest).join [dot, dot]) =
        if 0 ∈ joinTail rest [dot, dot] then .error .badName
        else (stepsIn t).foldlM (advance tree) [] >>= fun next =>
          follow disk.top true maxLinks (loc ++ next) [.up] := by
    intro disk loc h
    rw [h.join_inside (by decide)]
    exact h.resolve_inside (hr.fresh.joinTail _) hsteps (hstays.2 hr.stays)
  by_cases hnul : 0 ∈ joinTail rest [dot, dot]
  · refine ⟨false, fun disk loc h => isFile_and_isDirectory_of_error .badName ?_⟩
    rw [find, hresolve disk loc h, if_pos hnul]
    rfl
  cases hfold : (stepsIn t).foldlM (advance tree) [] with
  | error fault =>
    refine ⟨false, fun disk loc h => isFile_and_isDirectory_of_error fault ?_⟩
    rw [find, hresolve disk loc h, if_neg hnul, hfold]
    rfl
  | ok next =>
    refine ⟨(tree.at? next).any Node.isDirectory, fun disk loc h => ?_⟩
    -- whether a directory stands where the step up is made, the tree alone tells
    have hat : disk.top.at? (loc ++ next) = tree.at? next := h.at?_append
    have hup := hresolve disk loc h
    rw [if_neg hnul, hfold] at hup
    obtain ⟨es, m, hes, hfollow, hm, hd⟩ | ⟨hno, hfollow⟩ :=
      follow_up disk.top true maxLinks (loc ++ next)
    · rw [← hat, hes]
      refine isFile_and_isDirectory_of_find (find_eq_ok_iff.2 ⟨?_, hm⟩) hd
      rw [hup]
      exact hfollow
    · rw [← hat, hno]
      refine isFile_and_isDirectory_of_error .notDirectory ?_
      rw [find, hup]
      simp only [bind, Except.bind, hfollow]

end Folio.Disk
