import Mathlib.Data.List.Forall2
import Folio.Proofs.Disk.Twins
import Folio.Proofs.Glob.Escape
import Folio.Proofs.Path.Below
import Folio.Target.Expand

/-!
# Searches in copies of a tree

A search goes down a tree by names that it reads there. In two copies of a tree it finds the same files in the
same order, as long as the pattern does not lead out of the tree.
-/
namespace Folio

namespace Target
open Disk
open Folio.Path (slash dot)
variable {disk₁ disk₂ : Disk} {loc₁ loc₂ : Place} {tree : Node} {depth : Nat} {p q : Path}

/-- What shows in a directory, with whether directories stand there. -/
def shown (n : Node) : List (Bytes × Bool) :=
  (n.entries.filter (isShown ·.1)).map fun e => (e.1, e.2.isDirectory)

theorem children_eq {disk : Disk} {loc place : Place} {n : Node} (h : disk.Hosts loc tree)
    (hfind : disk.find true p = .ok (loc ++ place, n)) (hn : tree.at? place = some n) :
    children disk p = (shown n).map fun e => (e.1, p.join e.1, e.2) := by
  rw [children, hfind]
  dsimp only
  rw [shown, List.map_map]
  apply List.map_congr_left
  intro e he
  have hmem := (List.mem_filter.1 he).1
  cases n with
  | directory es =>
    have hlink : e.2.LinkFree :=
      (h.linkFree.at hn).of_mem (h.sound.at hn) hmem
    cases hc : e.2 with
    | link target => exact absurd (congrArg some hc) (hlink [] target)
    | file content modified => simp [hc, Node.isDirectory]
    | directory inner => simp [hc, Node.isDirectory]
  | file content modified => cases hmem
  | link target => cases hmem

theorem isFileName_of_mem_shown {disk : Disk} {loc place : Place} {n : Node} (h : disk.Hosts loc tree)
    (hn : tree.at? place = some n) {e : Bytes × Bool} (he : e ∈ shown n) :
    IsFileName e.1 := by
  obtain ⟨entry, hentry, rfl⟩ := List.mem_map.1 he
  exact (h.sound.at hn).isFileName entry (List.mem_filter.1 hentry).1

section
variable {R : Path → Path → Prop} {g₁ g₂ : Path → Bool → List Path} {f₁ f₂ : List Ancestor → Path → Visit}

theorem forall₂_descendAll {es : List (Bytes × Node)} {way₁ way₂ : List Ancestor} {place₁ place₂ : Place}
    (h : ∀ e ∈ es, List.Forall₂ R
      (descend g₁ (e.2.visit isShown f₁ way₁ (place₁ ++ [e.1]) (p.join e.1)))
      (descend g₂ (e.2.visit isShown f₂ way₂ (place₂ ++ [e.1]) (q.join e.1)))) :
    List.Forall₂ R (descendAll g₁ (visitEntries isShown f₁ way₁ place₁ p es))
      (descendAll g₂ (visitEntries isShown f₂ way₂ place₂ q es)) := by
  induction es with
  | nil => exact .nil
  | cons e es ih =>
    obtain ⟨name, node⟩ := e
    have hrest := ih fun e he => h e (List.mem_cons_of_mem _ he)
    rw [visitEntries, visitEntries]
    split
    · exact List.rel_append (h (name, node) List.mem_cons_self) hrest
    · exact hrest

theorem forall₂_descend {B : Path → Path → Prop}
    (hjoin : ∀ p q name, B p q → IsFileName name → B (p.join name) (q.join name))
    (hg : ∀ p q name d, B p q → IsFileName name →
      List.Forall₂ R (g₁ (p.join name) d) (g₂ (q.join name) d))
    {n : Node} (hs : n.Sound) (hl : n.LinkFree) {name : Bytes} (hb : B p q) (hname : IsFileName name)
    (way₁ way₂ : List Ancestor) (place₁ place₂ : Place) :
    List.Forall₂ R (descend g₁ (n.visit isShown f₁ way₁ place₁ (p.join name)))
      (descend g₂ (n.visit isShown f₂ way₂ place₂ (q.join name))) := by
  induction n using Node.inductionOn generalizing p q name way₁ way₂ place₁ place₂ with
  | file content modified => exact List.rel_append (hg p q name _ hb hname) .nil
  | link target => exact absurd rfl (hl [] target)
  | directory es ih =>
    refine List.rel_append (hg p q name _ hb hname) (forall₂_descendAll fun e he => ?_)
    exact ih e he (hs.of_mem he) (hl.of_mem hs he) (hjoin p q name hb hname) (hs.isFileName e he) _ _ _ _

end

theorem forall₂_below {R : Path → Path → Prop} {g₁ g₂ : Path → Bool → List Path}
    (h₁ : disk₁.Hosts loc₁ tree) (h₂ : disk₂.Hosts loc₂ tree) (ht : Twins loc₁ loc₂ depth p q)
    (hg : ∀ p q name d, Twins loc₁ loc₂ depth p q → IsFileName name →
      List.Forall₂ R (g₁ (p.join name) d) (g₂ (q.join name) d)) :
    List.Forall₂ R (descendAll g₁ (below disk₁ p)) (descendAll g₂ (below disk₂ q)) := by
  obtain ⟨found, hp, hq, hat⟩ := ht.exists_find h₁ h₂
  rw [below, below, hp, hq]
  cases found with
  | error fault => exact .nil
  | ok f =>
    obtain ⟨place, n⟩ := f
    have hn := hat place n rfl
    have hs := h₁.sound.at hn
    have hl := h₁.linkFree.at hn
    cases n with
    | file content modified => exact .nil
    | link target => exact .nil
    | directory es =>
      have hjoin : ∀ p q name, Twins loc₁ loc₂ depth p q → IsFileName name →
          Twins loc₁ loc₂ depth (p.join name) (q.join name) := by
        intro p q name ht hname
        exact (ht.join_fileName h₁ h₂ hname).mono (Nat.le_succ depth)
      apply forall₂_descendAll
      intro e he
      exact forall₂_descend hjoin hg (hs.of_mem he) (hl.of_mem hs he) ht (hs.isFileName e he) _ _ _ _

/-- Whether a piece takes the way up: it is the literal name of it, or a wildcard behind a dot. -/
def leadsUp (p : Piece) : Bool := (specialNames p).contains [dot, dot]

def staysPut (p : Piece) : Bool := p.isEmpty || (specialNames p).contains [dot]

/-- Whether what pieces find from a directory so many directories down in a tree is in the tree. At the end
of a pattern a wildcard may take the way up, for no file is found there. -/
def keeps (depth : Nat) : List Piece → Bool
  | [] => true
  | p :: rest =>
    if isDeep p then
      match rest with
      | [] => true
      | _ :: rest => keeps (depth + 1) rest
    else if leadsUp p && ((Glob.literalText? p).isSome || !rest.isEmpty) then
      decide (0 < depth) && keeps (depth - 1) rest
    else keeps (if staysPut p then depth else depth + 1) rest

/-- The paths that the remaining pieces find once a path was reached. -/
def onward (disk : Disk) (needDirectory : Bool) (rest : List Piece) (next : Path) (d : Bool) : List Path :=
  if rest.isEmpty then (if needDirectory && !d then [] else [next])
  else search disk needDirectory rest next d

def deepen (disk : Disk) (needDirectory : Bool) : List Piece → Path → Bool → List Path
  | [], next, d => if d then [next] else []
  | q :: rest, next, d =>
    if takes q (next.fileName?.getD []) then onward disk needDirectory rest next d else []

theorem search_cons (disk : Disk) (needDirectory : Bool) (piece : Piece) (rest : List Piece) (path : Path)
    (isDirectory : Bool) : search disk needDirectory (piece :: rest) path isDirectory =
      match Glob.literalText? piece with
      | some name =>
        let next := path.join (Utf8.encode name)
        if leadsOn disk name next isDirectory then
          onward disk needDirectory rest next (disk.isDirectory next)
        else []
      | none =>
        if !isDirectory then []
        else if isDeep piece then descendAll (deepen disk needDirectory rest) (below disk path)
        else
          ((specialNames piece).flatMap fun name =>
              onward disk needDirectory rest (path.join name) (disk.isDirectory (path.join name))) ++
            (children disk path).flatMap fun found =>
              if takes piece found.1 then onward disk needDirectory rest found.2.1 found.2.2
              else [] := by
  rw [search]
  cases Glob.literalText? piece with
  | some name => rfl
  | none => cases rest <;> rfl

theorem search_literal {disk : Disk} {piece : Piece} {name : Text} {isDirectory : Bool}
    (hl : Glob.literalText? piece = some name) (hnext : p.join (Utf8.encode name) = q)
    (hleads : leadsOn disk name q isDirectory = true) (needDirectory : Bool) (rest : List Piece) :
    search disk needDirectory (piece :: rest) p isDirectory =
      onward disk needDirectory rest q (disk.isDirectory q) := by
  rw [search_cons, hl]
  dsimp only
  rw [hnext, if_pos hleads]

/-- Two results are alike when neither is a file, or both are at twins. -/
def Alike (disk₁ disk₂ : Disk) (loc₁ loc₂ : Place) (p q : Path) : Prop :=
  disk₁.isFile p = disk₂.isFile q ∧ (disk₁.isFile p = true → Twins loc₁ loc₂ 0 p q)

theorem forall₂_flatMap {α β γ : Type} {R : β → γ → Prop} {f : α → List β} {g : α → List γ} {l : List α}
    (h : ∀ x ∈ l, List.Forall₂ R (f x) (g x)) : List.Forall₂ R (l.flatMap f) (l.flatMap g) := by
  induction l with
  | nil => exact .nil
  | cons x l ih =>
    rw [List.flatMap_cons, List.flatMap_cons]
    exact List.rel_append (h x List.mem_cons_self) (ih fun y hy => h y (List.mem_cons_of_mem _ hy))

theorem fileName?_join {name : Bytes} (hn : IsFileName name) : (p.join name).fileName? = some name := by
  rw [Path.fileName?, Path.components_join hn, List.getLast?_concat]

theorem staysPut_of_literal {piece : Piece} {name : Text} (h : Glob.literalText? piece = some name)
    (hs : Step.ofPiece (Utf8.encode name) = .stay) : staysPut piece = true := by
  have hname : name = [] ∨ name = ['.'] := by
    refine (eq_of_ofPiece_stay hs).imp (fun hn => ?_) fun hn => ?_
    · exact Utf8.encode_inj.1 hn
    · exact Utf8.encode_inj.1 hn
  rw [Glob.eq_of_literalText? h]
  rcases hname with rfl | rfl <;> decide

theorem leadsUp_of_literal {piece : Piece} {name : Text} (h : Glob.literalText? piece = some name)
    (hs : Step.ofPiece (Utf8.encode name) = .up) : leadsUp piece = true := by
  obtain rfl : name = ['.', '.'] := Utf8.encode_inj.1 (eq_of_ofPiece_up hs)
  rw [Glob.eq_of_literalText? h]
  decide

theorem mem_specialNames {piece : Piece} {name : Bytes} (h : name ∈ specialNames piece) :
    name = [dot, dot] ∧ leadsUp piece = true ∨ name = [dot] ∧ staysPut piece = true := by
  have hname : name = [dot, dot] ∨ name = [dot] := by
    unfold specialNames at h
    split at h
    · simpa using (List.mem_filter.1 h).1
    · cases h
  rcases hname with rfl | rfl
  · exact .inl ⟨rfl, List.contains_iff_mem.2 h⟩
  · exact .inr ⟨rfl, by rw [staysPut, List.contains_iff_mem.2 h, Bool.or_true]⟩

section
variable (h₁ : disk₁.Hosts loc₁ tree) (h₂ : disk₂.Hosts loc₂ tree)
include h₁ h₂

theorem exists_children_twins (ht : Twins loc₁ loc₂ depth p q) : ∃ entries : List (Bytes × Bool),
    (∀ e ∈ entries, IsFileName e.1) ∧
      children disk₁ p = entries.map (fun e => (e.1, p.join e.1, e.2)) ∧
      children disk₂ q = entries.map (fun e => (e.1, q.join e.1, e.2)) := by
  obtain ⟨found, hp, hq, hat⟩ := ht.exists_find h₁ h₂
  cases found with
  | error fault =>
    refine ⟨[], by simp, ?_, ?_⟩
    · rw [children, hp]
      rfl
    · rw [children, hq]
      rfl
  | ok f =>
    obtain ⟨place, n⟩ := f
    have hn := hat place n rfl
    exact ⟨shown n, fun e he => isFileName_of_mem_shown h₁ hn he, children_eq h₁ (hp true) hn,
      children_eq h₂ (hq true) hn⟩

/-- The way up is no file in either copy, even where it leads out of the tree. -/
theorem forall₂_onward_up {needDirectory : Bool} (ht : Twins loc₁ loc₂ depth p q) :
    List.Forall₂ (Alike disk₁ disk₂ loc₁ loc₂)
      (onward disk₁ needDirectory [] (p.join [dot, dot]) (disk₁.isDirectory (p.join [dot, dot])))
      (onward disk₂ needDirectory [] (q.join [dot, dot]) (disk₂.isDirectory (q.join [dot, dot]))) := by
  obtain ⟨rest, hr, -, rfl, rfl⟩ := ht
  obtain ⟨b, hb⟩ := exists_join_up hr tree
  obtain ⟨hd₁, hf₁⟩ := hb disk₁ loc₁ h₁
  obtain ⟨hd₂, hf₂⟩ := hb disk₂ loc₂ h₂
  rw [hd₁, hd₂, onward, onward]
  simp only [List.isEmpty_nil, if_true]
  split
  · exact .nil
  · exact .cons ⟨hf₁.trans hf₂.symm, by simp [hf₁]⟩ .nil

section
variable {piece : Piece} {rest : List Piece} {further : Nat} {needDirectory : Bool}
  (hrest : ∀ p q d, Twins loc₁ loc₂ further p q → List.Forall₂ (Alike disk₁ disk₂ loc₁ loc₂)
    (onward disk₁ needDirectory rest p d) (onward disk₂ needDirectory rest q d))
include hrest

/-- A literal piece makes one step, the same from both twins. -/
theorem forall₂_search_literal {name : Text} (hl : Glob.literalText? piece = some name)
    (hslash : '/' ∉ name) (hstay : staysPut piece = true → further ≤ depth) (hdown : further ≤ depth + 1)
    (hup : leadsUp piece = true → 0 < depth ∧ further ≤ depth - 1)
    (ht : Twins loc₁ loc₂ depth p q) (d : Bool) :
    List.Forall₂ (Alike disk₁ disk₂ loc₁ loc₂) (search disk₁ needDirectory (piece :: rest) p d)
      (search disk₂ needDirectory (piece :: rest) q d) := by
  have hslash' : slash ∉ Utf8.encode name := mt (Utf8.mem_encode_iff (by decide)).1 hslash
  have hnext := ht.join h₁ h₂ hslash' fun hs => (hup (leadsUp_of_literal hl hs)).1
  have hfurther : further ≤ (Step.ofPiece (Utf8.encode name)).depthAfter depth := by
    cases hs : Step.ofPiece (Utf8.encode name) with
    | stay => exact hstay (staysPut_of_literal hl hs)
    | up => exact (hup (leadsUp_of_literal hl hs)).2
    | into _ => exact hdown
  have hleads : leadsOn disk₁ name (p.join (Utf8.encode name)) d =
      leadsOn disk₂ name (q.join (Utf8.encode name)) d := by
    rw [leadsOn, leadsOn, hnext.isOk_find_eq h₁ h₂, hnext.isOk_find_eq h₁ h₂]
  rw [search_cons, search_cons, hl]
  dsimp only
  rw [hleads, hnext.isDirectory_eq h₁ h₂]
  split
  · exact hrest _ _ _ (hnext.mono hfurther)
  · exact .nil

/-- A wildcard takes the same special names from both twins, and the same of what shows there. -/
theorem forall₂_search_wildcard (hl : Glob.literalText? piece = none) (hdeep : isDeep piece = false)
    (hstay : staysPut piece = true → further ≤ depth) (hdown : further ≤ depth + 1)
    (hup : leadsUp piece = true → 0 < depth ∧ further ≤ depth - 1 ∨ rest = [])
    (ht : Twins loc₁ loc₂ depth p q) (d : Bool) :
    List.Forall₂ (Alike disk₁ disk₂ loc₁ loc₂) (search disk₁ needDirectory (piece :: rest) p d)
      (search disk₂ needDirectory (piece :: rest) q d) := by
  rw [search_cons, search_cons, hl]
  cases d with
  | false => exact .nil
  | true =>
    simp only [hdeep, Bool.not_true, Bool.false_eq_true, if_false]
    refine List.rel_append (forall₂_flatMap fun name hname => ?_) ?_
    · rcases mem_specialNames hname with ⟨rfl, hu⟩ | ⟨rfl, hs⟩
      · rcases hup hu with ⟨hpos, hle⟩ | rfl
        · have hslash : slash ∉ ([dot, dot] : Bytes) := by decide
          have hnext : Twins loc₁ loc₂ (depth - 1) (p.join [dot, dot]) (q.join [dot, dot]) :=
            ht.join h₁ h₂ hslash fun _ => hpos
          rw [hnext.isDirectory_eq h₁ h₂]
          exact hrest _ _ _ (hnext.mono hle)
        · exact forall₂_onward_up h₁ h₂ ht
      · have hslash : slash ∉ ([dot] : Bytes) := by decide
        have hnext : Twins loc₁ loc₂ depth (p.join [dot]) (q.join [dot]) :=
          ht.join h₁ h₂ hslash fun h => absurd h (by decide)
        rw [hnext.isDirectory_eq h₁ h₂]
        exact hrest _ _ _ (hnext.mono (hstay hs))
    · obtain ⟨entries, hnames, hp, hq⟩ := exists_children_twins h₁ h₂ ht
      rw [hp, hq, List.flatMap_map, List.flatMap_map]
      refine forall₂_flatMap fun e he => ?_
      have hnext := ht.join_fileName h₁ h₂ (hnames e he)
      dsimp only
      split
      · exact hrest _ _ _ (hnext.mono hdown)
      · exact .nil

/-- One piece that is not deep, searched from twins: what it finds are twins as far down as the rest of the
pattern needs, or no files. -/
theorem forall₂_search_cons (hdeep : isDeep piece = false)
    (hslash : ∀ name, Glob.literalText? piece = some name → '/' ∉ name)
    (hstay : staysPut piece = true → further ≤ depth) (hdown : further ≤ depth + 1)
    (hup : leadsUp piece = true →
      0 < depth ∧ further ≤ depth - 1 ∨ rest = [] ∧ Glob.literalText? piece = none)
    (ht : Twins loc₁ loc₂ depth p q) (d : Bool) :
    List.Forall₂ (Alike disk₁ disk₂ loc₁ loc₂) (search disk₁ needDirectory (piece :: rest) p d)
      (search disk₂ needDirectory (piece :: rest) q d) := by
  cases hl : Glob.literalText? piece with
  | some name =>
    rw [hl] at hup
    simp only [reduceCtorEq, and_false, or_false] at hup
    exact forall₂_search_literal h₁ h₂ hrest hl (hslash name hl) hstay hdown hup ht d
  | none =>
    have hup' := fun hu => (hup hu).imp_right And.left
    exact forall₂_search_wildcard h₁ h₂ hrest hl hdeep hstay hdown hup' ht d

end

theorem forall₂_search_deep {piece : Piece} {rest : List Piece} {needDirectory : Bool}
    (hdeep : isDeep piece = true)
    (hrest : ∀ p q name d, Twins loc₁ loc₂ depth p q → IsFileName name →
      List.Forall₂ (Alike disk₁ disk₂ loc₁ loc₂) (deepen disk₁ needDirectory rest (p.join name) d)
        (deepen disk₂ needDirectory rest (q.join name) d))
    (ht : Twins loc₁ loc₂ depth p q) (d : Bool) :
    List.Forall₂ (Alike disk₁ disk₂ loc₁ loc₂) (search disk₁ needDirectory (piece :: rest) p d)
      (search disk₂ needDirectory (piece :: rest) q d) := by
  have hliteral : Glob.literalText? piece = none := by
    rw [isDeep, decide_eq_true_eq] at hdeep
    rw [hdeep]
    rfl
  rw [search_cons, search_cons, hliteral]
  cases d with
  | false => exact .nil
  | true =>
    simp only [hdeep, Bool.not_true, Bool.false_eq_true, if_false, if_true]
    exact forall₂_below h₁ h₂ ht hrest

/-- Searches that start at twins find twins wherever they find files. -/
theorem forall₂_onward {needDirectory : Bool} {pieces : List Piece} (hk : keeps depth pieces = true)
    (hslash : ∀ piece ∈ pieces, ∀ name, Glob.literalText? piece = some name → '/' ∉ name)
    (ht : Twins loc₁ loc₂ depth p q) (d : Bool) :
    List.Forall₂ (Alike disk₁ disk₂ loc₁ loc₂) (onward disk₁ needDirectory pieces p d)
      (onward disk₂ needDirectory pieces q d) := by
  -- the depth that `keeps` counts is the depth of the twins that the search has come to
  fun_induction keeps depth pieces generalizing p q d with
  | case1 depth =>
    rw [onward, onward]
    simp only [List.isEmpty_nil, if_true]
    split
    · exact .nil
    · exact .cons ⟨ht.isFile_eq h₁ h₂, fun _ => ht.mono (Nat.zero_le depth)⟩ .nil
  | case2 depth piece hdeep =>
    refine forall₂_search_deep h₁ h₂ hdeep (fun p q name d ht hn => ?_) ht d
    have hnext := ht.join_fileName h₁ h₂ hn
    rw [deepen, deepen]
    split
    · exact .cons ⟨hnext.isFile_eq h₁ h₂, fun _ => hnext.mono (Nat.zero_le _)⟩ .nil
    · exact .nil
  | case3 depth piece hdeep next rest ih =>
    refine forall₂_search_deep h₁ h₂ hdeep (fun p q name d ht hn => ?_) ht d
    rw [deepen, deepen, fileName?_join hn, fileName?_join hn]
    split
    · exact ih hk (fun r hr => hslash r (by simp [hr])) (ht.join_fileName h₁ h₂ hn) d
    · exact .nil
  | case4 depth piece rest hdeep hleads ih =>
    rw [Bool.and_eq_true, decide_eq_true_eq] at hk
    have hrest := fun p q d (ht : Twins loc₁ loc₂ (depth - 1) p q) =>
      ih hk.2 (fun r hr => hslash r (List.mem_cons_of_mem _ hr)) ht d
    exact forall₂_search_cons h₁ h₂ hrest (Bool.not_eq_true _ ▸ hdeep) (hslash piece List.mem_cons_self)
      (fun _ => Nat.sub_le depth 1) (by omega) (fun _ => .inl ⟨hk.1, Nat.le_refl _⟩) ht d
  | case5 depth piece rest hdeep hleads ih =>
    have hrest := fun p q d (ht : Twins loc₁ loc₂ (if staysPut piece then depth else depth + 1) p q) =>
      ih hk (fun r hr => hslash r (List.mem_cons_of_mem _ hr)) ht d
    refine forall₂_search_cons h₁ h₂ hrest (Bool.not_eq_true _ ▸ hdeep) (hslash piece List.mem_cons_self)
      ?_ ?_ ?_ ht d
    · intro hs
      exact Nat.le_of_eq (if_pos hs)
    · split <;> omega
    · intro hu
      rw [hu] at hleads
      right
      simpa [and_comm] using hleads

end
end Target
end Folio
