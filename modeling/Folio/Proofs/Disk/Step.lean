import Folio.Proofs.Disk.Tree

/-!
# Trees without links

In a tree without links a path is followed by one step after another, and a step depends only on the
place where it is made. So it does in a part of a larger tree, as long as no step leads out of the part.
-/
namespace Folio

def Node.LinkFree (tree : Node) : Prop := ∀ place target, tree.at? place ≠ some (.link target)

namespace Node
variable {tree n : Node} {es : List (Bytes × Node)} {place : Place} {name : Bytes}

theorem LinkFree.at (hl : tree.LinkFree) (h : tree.at? place = some n) : n.LinkFree := by
  intro below target ht
  apply hl (place ++ below) target
  rw [at?_append, h]
  exact ht

theorem LinkFree.of_mem {e : Bytes × Node} (hl : (directory es).LinkFree) (hs : (directory es).Sound)
    (he : e ∈ es) : e.2.LinkFree := by
  have hat : (directory es).at? [e.1] = some e.2 := by
    rw [at?_directory_cons, hs.lookup_iff.2 he]
    rfl
  exact hl.at hat

mutual
def every (check : Node → Bool) : Node → Bool
  | .file content modified => check (.file content modified)
  | .link target => check (.link target)
  | .directory es => check (.directory es) && everyInside check es

def everyInside (check : Node → Bool) : List (Bytes × Node) → Bool
  | [] => true
  | (_, node) :: rest => node.every check && everyInside check rest
end

variable {check : Node → Bool}

theorem every_of_lookup (h : everyInside check es = true) (hl : es.lookup name = some n) :
    n.every check = true := by
  induction es with
  | nil => cases hl
  | cons e es ih =>
    obtain ⟨k, m⟩ := e
    rw [everyInside, Bool.and_eq_true] at h
    rw [List.lookup_cons] at hl
    split at hl
    · cases hl
      exact h.1
    · exact ih h.2 hl

theorem check_of_every (h : tree.every check = true) (hn : tree.at? place = some n) : check n = true := by
  induction place generalizing tree with
  | nil =>
    cases hn
    cases n with
    | directory es => exact (Bool.and_eq_true_iff.1 h).1
    | _ => exact h
  | cons name rest ih =>
    obtain ⟨es, c, rfl, hc, hrest⟩ := at?_cons_eq_some hn
    exact ih (every_of_lookup (Bool.and_eq_true_iff.1 h).2 hc) hrest

def isLink : Node → Bool
  | .link _ => true
  | _ => false

theorem of_mem_of_every {p : Bytes → Prop} [DecidablePred p]
    (h : tree.every (fun n => n.entries.all fun e => decide (p e.1)) = true) (hn : tree.at? place = some n)
    {name : Bytes} (hm : name ∈ place) : p name := by
  obtain ⟨front, rest, rfl⟩ := List.append_of_mem hm
  rw [at?_append] at hn
  obtain ⟨m, hfront, hrest⟩ := Option.bind_eq_some_iff.1 hn
  obtain ⟨es, c, rfl, hl, -⟩ := at?_cons_eq_some hrest
  obtain ⟨before, after, hes, -⟩ := List.lookup_eq_some_iff.1 hl
  have hcheck := check_of_every h hfront
  rw [entries, hes] at hcheck
  simp_all

theorem linkFree_of_every (h : tree.every (!·.isLink) = true) : tree.LinkFree := by
  intro place target hn
  exact absurd (check_of_every h hn) (by simp [isLink])

end Node

namespace Disk
open Folio.Path (slash dot)
variable {top tree : Node} {loc here : Place} {last : Bool} {links : Nat} {ss : List Step}

/-- One step along a path in a tree without links. -/
def advance (tree : Node) (here : Place) (step : Step) : Except Fault Place :=
  match tree.at? here with
  | some (.directory es) =>
    match step with
    | .stay => .ok here
    | .up => .ok here.dropLast
    | .into name =>
      if maxNameSize < name.length then .error .nameTooLong
      else match es.lookup name with
        | none => .error .missing
        | some _ => .ok (here ++ [name])
  | _ => .error .notDirectory

theorem at?_child {es : List (Bytes × Node)} (h : tree.at? here = some (.directory es)) (name : Bytes) :
    tree.at? (here ++ [name]) = es.lookup name := by
  rw [Node.at?_append, h, Option.bind_some, Node.at?_directory_cons]
  cases es.lookup name <;> rfl

theorem lookup_ne_link {es : List (Bytes × Node)} {name target : Bytes} (hl : tree.LinkFree)
    (h : tree.at? here = some (.directory es)) : es.lookup name ≠ some (.link target) := by
  intro hlookup
  apply hl (here ++ [name]) target
  rw [at?_child h, hlookup]

def Step.after (here : Place) : Step → Place
  | .stay => here
  | .up => here.dropLast
  | .into name => here ++ [name]

def StaysIn (here : Place) : List Step → Prop
  | [] => True
  | step :: rest => (step = .up → here ≠ []) ∧ StaysIn (step.after here) rest

instance decidableStaysIn : (here : Place) → (ss : List Step) → Decidable (StaysIn here ss)
  | _, [] => inferInstanceAs (Decidable True)
  | here, step :: rest =>
    have := decidableStaysIn (step.after here) rest
    inferInstanceAs (Decidable ((step = .up → here ≠ []) ∧ StaysIn (step.after here) rest))

theorem staysIn_append {ts : List Step} :
    StaysIn here (ss ++ ts) ↔ StaysIn here ss ∧ StaysIn (ss.foldl Step.after here) ts := by
  induction ss generalizing here with
  | nil => simp [StaysIn]
  | cons step rest ih => simp [StaysIn, ih, and_assoc]

/-- In a part of a tree that holds no links, the steps are those of the part, unless they lead out of it. -/
theorem follow_at (h : top.at? loc = some tree) (hl : tree.LinkFree) (hin : loc = [] ∨ StaysIn here ss)
    (more : List Step) : follow top last links (loc ++ here) (ss ++ more) =
      ss.foldlM (advance tree) here >>= fun next => follow top last links (loc ++ next) more := by
  induction ss generalizing here with
  | nil => rfl
  | cons step rest ih =>
    have hat : top.at? (loc ++ here) = tree.at? here := by rw [Node.at?_append, h, Option.bind_some]
    have hnext : follow top last links (loc ++ step.after here) (rest ++ more) =
        rest.foldlM (advance tree) (step.after here) >>= fun next =>
          follow top last links (loc ++ next) more := ih (hin.imp_right And.right)
    rw [List.cons_append, follow, hat, List.foldlM_cons, advance]
    cases hes : tree.at? here with
    | none => rfl
    | some n =>
      cases n with
      | file content modified => rfl
      | link target => rfl
      | directory es =>
        cases step with
        | stay => exact hnext
        | up =>
          -- the step up stays below `loc`, for `here` is not the top of the part
          have hup : (loc ++ here).dropLast = loc ++ here.dropLast := by
            rcases hin with rfl | hin
            · rfl
            · exact List.dropLast_append_of_ne_nil (hin.1 rfl)
          dsimp only
          rw [hup]
          exact hnext
        | into name =>
          dsimp only
          split
          · rfl
          · cases hc : es.lookup name with
            | none => rfl
            | some c =>
              rw [List.append_assoc]
              cases c with
              | link target => exact absurd hc (lookup_ne_link hl hes)
              | file content modified => exact hnext
              | directory inner => exact hnext

theorem follow_linkFree (hl : top.LinkFree) :
    follow top last links here ss = ss.foldlM (advance top) here := by
  have hat : follow top last links ([] ++ here) (ss ++ []) =
      ss.foldlM (advance top) here >>= fun next => follow top last links ([] ++ next) [] :=
    follow_at rfl hl (.inl rfl) []
  rw [List.append_nil, List.nil_append] at hat
  rw [hat]
  cases ss.foldlM (advance top) here with
  | error fault => rfl
  | ok next => simp [bind, Except.bind, follow]

/-- Whether a step is no attempt to use a name of too many bytes. -/
def Step.isNameable : Step → Bool
  | .into name => name.length ≤ maxNameSize
  | _ => true

theorem advance_eq_ok_iff {step : Step} {place : Place} : advance tree here step = .ok place ↔
    (∃ es, tree.at? here = some (.directory es)) ∧ step.isNameable = true ∧
      place = step.after here ∧ (tree.at? place).isSome = true := by
  unfold advance
  cases hes : tree.at? here with
  | none => simp
  | some n =>
    cases n with
    | file content modified => simp
    | link target => simp
    | directory es =>
      -- a step that stays or leads up ends at a directory of its own accord
      have hok (next : Place) (hat : (tree.at? next).isSome = true) :
          (Except.ok next : Except Fault Place) = .ok place ↔
            (∃ inner, some (Node.directory es) = some (.directory inner)) ∧ true = true ∧
              place = next ∧ (tree.at? place).isSome = true := by
        constructor
        · rintro ⟨⟩
          exact ⟨⟨es, rfl⟩, rfl, rfl, hat⟩
        · rintro ⟨-, -, rfl, -⟩
          rfl
      cases step with
      | stay => exact hok here (by rw [hes]; rfl)
      | up =>
        obtain ⟨m, hm, -⟩ := at?_dropLast hes rfl
        exact hok here.dropLast (by rw [hm]; rfl)
      | into name =>
        have hlookup := at?_child hes name
        dsimp only [Step.isNameable, Step.after]
        by_cases hsize : maxNameSize < name.length
        · simp [hsize, Nat.not_le.2 hsize]
        · rw [if_neg hsize, decide_eq_true (Nat.not_lt.1 hsize)]
          cases hc : es.lookup name with
          | none =>
            simp only [reduceCtorEq, false_iff]
            rintro ⟨-, -, rfl, hat⟩
            rw [hlookup, hc] at hat
            cases hat
          | some c => exact hok (here ++ [name]) (by rw [hlookup, hc]; rfl)

theorem bind_eq_ok_iff {α β : Type} {x : Except Fault α} {f : α → Except Fault β} {b : β} :
    x >>= f = .ok b ↔ ∃ a, x = .ok a ∧ f a = .ok b := by
  cases x <;> simp [bind, Except.bind]

theorem foldlM_advance_eq {place : Place} (h : ss.foldlM (advance tree) here = .ok place) :
    place = ss.foldl Step.after here := by
  induction ss generalizing here with
  | nil =>
    cases h
    rfl
  | cons step rest ih =>
    rw [List.foldlM_cons, bind_eq_ok_iff] at h
    obtain ⟨next, hstep, hrest⟩ := h
    obtain ⟨-, -, rfl, -⟩ := advance_eq_ok_iff.1 hstep
    exact ih hrest

theorem toOption_eq_some_iff {ε α : Type} {x : Except ε α} {a : α} :
    x.toOption = some a ↔ x = .ok a := by
  cases x <;> simp [Except.toOption]

theorem find_eq_ok_iff {disk : Disk} {path : Path} {place : Place} {n : Node} :
    disk.find last path = .ok (place, n) ↔
      disk.resolve last path = .ok place ∧ disk.top.at? place = some n := by
  rw [find, bind_eq_ok_iff]
  constructor
  · rintro ⟨found, hfound, h⟩
    cases hn : disk.top.at? found with
    | none => simp [hn] at h
    | some m =>
      simp only [hn, Except.ok.injEq, Prod.mk.injEq] at h
      obtain ⟨rfl, rfl⟩ := h
      exact ⟨hfound, hn⟩
  · rintro ⟨hplace, hn⟩
    exact ⟨place, hplace, by rw [hn]⟩

theorem find_eq_find_true {disk : Disk} {path : Path} (hl : disk.top.LinkFree) :
    disk.find last path = disk.find true path := by
  rw [find, find, resolve, resolve, follow_linkFree hl, follow_linkFree hl]

theorem resolve_eq_ok_iff {disk : Disk} {path : Path} {place : Place} (hl : disk.top.LinkFree) :
    disk.resolve last path = .ok place ↔ (path.bytes ≠ [] ∧ 0 ∉ path.bytes) ∧
      (steps path.bytes).foldlM (advance disk.top) (startOf disk.current path.bytes) = .ok place := by
  rw [resolve, follow_linkFree hl]
  by_cases hnil : path.bytes = []
  · simp [hnil]
  · by_cases hnul : 0 ∈ path.bytes <;> simp [hnil, hnul]

theorem advance_file {content : Bytes} {modified : Int} (here : Place) (step : Step) :
    advance (.file content modified) here step = .error .notDirectory := by
  cases here <;> rfl

theorem ne_nil_of_find {disk : Disk} {path : Path} {place : Place} {content : Bytes} {modified : Int}
    (hl : disk.top.LinkFree) (h : disk.find last path = .ok (place, .file content modified)) :
    place ≠ [] := by
  rintro rfl
  obtain ⟨hresolve, hat⟩ := find_eq_ok_iff.1 h
  have htop : disk.top = .file content modified := Option.some.inj hat
  obtain ⟨step, rest, hsteps⟩ := List.exists_cons_of_ne_nil (steps_ne_nil path.bytes)
  obtain ⟨-, hfold⟩ := (resolve_eq_ok_iff hl).1 hresolve
  rw [htop, hsteps, List.foldlM_cons, advance_file] at hfold
  cases hfold

end Disk
end Folio
