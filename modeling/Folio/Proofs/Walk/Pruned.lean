import Folio.Proofs.Path.Below
import Folio.Walk.Flatten

/-!
# Pruned walks

Everything that a walk meets stands at the path of a directory with a name added, with links followed or
not. So what a pruned walk meets can be told from paths alone: it is what the walk without pruning meets,
less everything that lies below a pruned directory.
-/
namespace Folio

namespace Visit

@[elab_as_elim]
theorem inductionOn {P : Visit → Prop} (v : Visit) (fault : ∀ f, P (.fault f))
    (entry : ∀ path kind inside, (∀ w ∈ inside, P w) → P (.entry path kind inside)) : P v :=
  @Visit.rec P (fun vs => ∀ w ∈ vs, P w) fault entry (fun _ h => absurd h List.not_mem_nil)
    (fun _ _ hh ht w hw => (List.mem_cons.1 hw).elim (fun h => h ▸ hh) (ht w)) v

mutual
/-- The visit is what stands at a path, and only a directory has anything inside. -/
def StandsAt (p : Path) : Visit → Prop
  | .fault _ => True
  | .entry path kind inside => path = p ∧ (inside ≠ [] → kind = .directory) ∧ AllBelow p inside

def AllBelow (p : Path) : List Visit → Prop
  | [] => True
  | v :: rest => (∃ n, Disk.IsFileName n ∧ v.StandsAt (p.join n)) ∧ AllBelow p rest
end

theorem allBelow_iff {p : Path} {vs : List Visit} :
    AllBelow p vs ↔ ∀ v ∈ vs, ∃ n, Disk.IsFileName n ∧ v.StandsAt (p.join n) := by
  induction vs with
  | nil => simp [AllBelow]
  | cons v vs ih => simp [AllBelow, ih]

def isPruned (prune : Path → Bool) : Visit → Bool
  | .entry path .directory _ => prune path
  | _ => false

variable {prune : Path → Bool} {vs : List Visit} {v : Visit} {found : Found} {p q : Path} {kind : Kind}

theorem mem_flattenInside_iff : found ∈ flattenInside prune vs ↔
    ∃ v ∈ vs, v.isPruned prune = false ∧ found ∈ v.flatten prune := by
  induction vs with
  | nil => simp [flattenInside]
  | cons v vs ih =>
    simp only [List.mem_cons, exists_eq_or_imp, ← ih]
    cases v with
    | fault f => simp [flattenInside, isPruned]
    | entry path kind inside =>
      cases kind with
      | directory => by_cases hp : prune path <;> simp [flattenInside, isPruned, flatten, hp, or_assoc]
      | file => simp [flattenInside, isPruned]
      | link => simp [flattenInside, isPruned]

theorem exists_names_of_mem_flatten (hv : v.StandsAt p) (h : .ok ⟨q, kind⟩ ∈ v.flatten prune) :
    ∃ names, (∀ n ∈ names, Disk.IsFileName n) ∧ q = p.below names := by
  induction v using inductionOn generalizing p with
  | fault f => simp [flatten] at h
  | entry path k inside ih =>
    obtain ⟨rfl, -, hinside⟩ := hv
    rw [flatten, List.mem_cons] at h
    rcases h with h | h
    · cases h
      exact ⟨[], by simp, rfl⟩
    · obtain ⟨w, hw, -, h⟩ := mem_flattenInside_iff.1 h
      obtain ⟨n, hn, hstands⟩ := allBelow_iff.1 hinside w hw
      obtain ⟨names, hnames, rfl⟩ := ih w hw hstands h
      exact ⟨n :: names, by simpa using ⟨hn, hnames⟩, rfl⟩

theorem exists_names_of_mem_flattenInside (hvs : AllBelow p vs)
    (h : .ok ⟨q, kind⟩ ∈ flattenInside prune vs) :
    ∃ names, (∀ n ∈ names, Disk.IsFileName n) ∧ q = p.below names := by
  obtain ⟨w, hw, -, h⟩ := mem_flattenInside_iff.1 h
  obtain ⟨n, hn, hstands⟩ := allBelow_iff.1 hvs w hw
  obtain ⟨names, hnames, rfl⟩ := exists_names_of_mem_flatten hstands h
  exact ⟨n :: names, by simpa using ⟨hn, hnames⟩, rfl⟩

/-- No directory strictly between a path and one below it is pruned. -/
def IsClear (prune : Path → Bool) (p : Path) (names : List Bytes) : Prop :=
  ∀ front, front ≠ [] → front <+: names → front ≠ names → prune (p.below front) = false

theorem isClear_nil : IsClear prune p [] := fun _ hf hp _ => absurd (List.prefix_nil.1 hp) hf

theorem isClear_cons_iff {n : Bytes} {names : List Bytes} : IsClear prune p (n :: names) ↔
    (names ≠ [] → prune (p.join n) = false) ∧ IsClear prune (p.join n) names := by
  constructor
  · intro h
    constructor
    · intro hne
      exact h [n] (by simp) (by simp) (by simpa using hne.symm)
    · intro front hf hp hne
      exact h (n :: front) (by simp) (by simpa using hp) (by simpa using hne)
  · intro h front hf hp hne
    obtain ⟨m, front, rfl⟩ := List.exists_cons_of_ne_nil hf
    obtain ⟨rfl, hrest⟩ := List.cons_prefix_cons.1 hp
    have hne' : front ≠ names := fun he => hne (by rw [he])
    by_cases hfront : front = []
    · subst hfront
      exact h.1 (Ne.symm hne')
    · exact h.2 front hfront hrest hne'

section
variable {names : List Bytes} (hn : ∀ n ∈ names, Disk.IsFileName n) (hk : kind ≠ .directory)
include hn hk

theorem isPruned_eq (hv : v.StandsAt p) {prune' : Path → Bool}
    (h : .ok ⟨p.below names, kind⟩ ∈ v.flatten prune') :
    v.isPruned prune = (decide (names ≠ []) && prune p) := by
  cases v with
  | fault f => simp [flatten] at h
  | entry path k inside =>
    obtain ⟨rfl, hdirectory, hinside⟩ := hv
    rw [flatten, List.mem_cons] at h
    rcases h with h | h
    · obtain ⟨hpath, rfl⟩ := Entry.mk.inj (Except.ok.inj h)
      have hnames : names = [] := Path.eq_nil_of_below_eq hn hpath
      cases kind <;> simp_all [isPruned]
    · obtain ⟨w, hw, -, hm⟩ := mem_flattenInside_iff.1 h
      obtain ⟨n, hname, hstands⟩ := allBelow_iff.1 hinside w hw
      obtain ⟨rest, hrest, hpath⟩ := exists_names_of_mem_flatten hstands hm
      have hnames : names = n :: rest :=
        Path.below_injective hn (by simpa using ⟨hname, hrest⟩) hpath
      rw [hdirectory (List.ne_nil_of_mem hw), isPruned]
      simp [hnames]

end

/-- Of the entries of a kind a pruned visit meets those that the whole visit meets on a clear way. -/
def MeetsClear (prune : Path → Bool) (kind : Kind) (p : Path) (v : Visit) : Prop :=
  ∀ names, (∀ n ∈ names, Disk.IsFileName n) → (.ok ⟨p.below names, kind⟩ ∈ v.flatten prune ↔
    .ok ⟨p.below names, kind⟩ ∈ v.flatten (fun _ => false) ∧ IsClear prune p names)

theorem mem_flattenInside_below_iff (hvs : AllBelow p vs) {names : List Bytes}
    (hn : ∀ n ∈ names, Disk.IsFileName n) (hk : kind ≠ .directory)
    (ih : ∀ w ∈ vs, ∀ q, w.StandsAt q → w.MeetsClear prune kind q) :
    .ok ⟨p.below names, kind⟩ ∈ flattenInside prune vs ↔
      .ok ⟨p.below names, kind⟩ ∈ flattenInside (fun _ => false) vs ∧ IsClear prune p names := by
  -- what is found inside a visit at `p.join n` has a name that begins with `n`
  have hbelow : ∀ prune' : Path → Bool, ∀ w ∈ vs, .ok ⟨p.below names, kind⟩ ∈ w.flatten prune' →
      ∃ n rest, names = n :: rest ∧ w.StandsAt (p.join n) ∧ ∀ m ∈ rest, Disk.IsFileName m := by
    intro prune' w hw hm
    obtain ⟨n, hname, hstands⟩ := allBelow_iff.1 hvs w hw
    obtain ⟨rest, hrest, hpath⟩ := exists_names_of_mem_flatten hstands hm
    have hnames := Path.below_injective hn (by simpa using ⟨hname, hrest⟩ : ∀ m ∈ n :: rest, _) hpath
    exact ⟨n, rest, hnames, hstands, hrest⟩
  rw [mem_flattenInside_iff, mem_flattenInside_iff]
  constructor
  · intro h
    obtain ⟨w, hw, hprune, hm⟩ := h
    obtain ⟨n, rest, rfl, hstands, hrest⟩ := hbelow _ w hw hm
    have hpruned : w.isPruned prune = (decide (rest ≠ []) && prune (p.join n)) :=
      isPruned_eq hrest hk hstands hm
    obtain ⟨hmet, hclear⟩ := (ih w hw _ hstands rest hrest).1 hm
    refine ⟨⟨w, hw, ?_, hmet⟩, isClear_cons_iff.2 ⟨fun hne => ?_, hclear⟩⟩
    · rw [isPruned_eq hrest hk hstands hm, Bool.and_false]
    · simpa [hpruned, hne] using hprune
  · intro h
    obtain ⟨⟨w, hw, -, hm⟩, hclear⟩ := h
    obtain ⟨n, rest, rfl, hstands, hrest⟩ := hbelow _ w hw hm
    obtain ⟨hfirst, hrestClear⟩ := isClear_cons_iff.1 hclear
    refine ⟨w, hw, ?_, (ih w hw _ hstands rest hrest).2 ⟨hm, hrestClear⟩⟩
    rw [isPruned_eq hrest hk hstands hm]
    by_cases hne : rest = []
    · simp [hne]
    · simp [hfirst hne]

theorem meetsClear_entry {k : Kind} (hvs : AllBelow p vs) (hk : kind ≠ .directory)
    (ih : ∀ w ∈ vs, ∀ q, w.StandsAt q → w.MeetsClear prune kind q) :
    (Visit.entry p k vs).MeetsClear prune kind p := by
  intro names hn
  rw [flatten, flatten, List.mem_cons, List.mem_cons, mem_flattenInside_below_iff hvs hn hk ih]
  constructor
  · intro h
    rcases h with h | h
    · have hpath : p.below names = p := (Entry.mk.inj (Except.ok.inj h)).1
      have hnames : names = [] := Path.eq_nil_of_below_eq hn hpath
      subst hnames
      exact ⟨.inl h, isClear_nil⟩
    · exact ⟨.inr h.1, h.2⟩
  · intro h
    exact h.1.imp_right fun hm => ⟨hm, h.2⟩

theorem meetsClear (hv : v.StandsAt p) (hk : kind ≠ .directory) : v.MeetsClear prune kind p := by
  induction v using inductionOn generalizing p with
  | fault f =>
    intro names _
    simp [flatten]
  | entry path k inside ih =>
    obtain ⟨rfl, -, hinside⟩ := hv
    exact meetsClear_entry hinside hk fun w hw q hstands => ih w hw hstands

theorem flattenInside_cons (v : Visit) (vs : List Visit) : flattenInside prune (v :: vs) =
    (if v.isPruned prune then [] else v.flatten prune) ++ flattenInside prune vs := by
  cases v with
  | fault f => rfl
  | entry path kind inside => cases kind <;> rfl

section
variable {β : Type} {g : Found → Option β}

/-- Who takes nothing from below a pruned directory does not notice that it is pruned. -/
def Overlooks (prune : Path → Bool) (p : Path) (g : Found → Option β) : Prop :=
  (∀ f, g (.error f) = none) ∧ (∀ q, g (.ok ⟨q, .directory⟩) = none) ∧
    ∀ names rest kind, (∀ n ∈ names ++ rest, Disk.IsFileName n) → names ≠ [] → rest ≠ [] →
      prune (p.below names) = true → g (.ok ⟨p.below (names ++ rest), kind⟩) = none

theorem Overlooks.join {n : Bytes} (h : Overlooks prune p g) (hn : Disk.IsFileName n) :
    Overlooks prune (p.join n) g :=
  ⟨h.1, h.2.1, fun names rest kind hnames _ hrest hprune =>
    h.2.2 (n :: names) rest kind (List.forall_mem_cons.2 ⟨hn, hnames⟩) (List.cons_ne_nil n names) hrest hprune⟩

theorem filterMap_pruned {n : Bytes} (h : Overlooks prune p g) (hn : Disk.IsFileName n)
    (hv : v.StandsAt (p.join n)) (hp : v.isPruned prune = true) :
    (v.flatten fun _ => false).filterMap g = [] := by
  rw [List.filterMap_eq_nil_iff]
  intro found hfound
  cases found with
  | error f => exact h.1 f
  | ok e =>
    obtain ⟨q, kind⟩ := e
    by_cases hk : kind = .directory
    · exact hk ▸ h.2.1 q
    · obtain ⟨rest, hrest, rfl⟩ := exists_names_of_mem_flatten hv hfound
      rw [isPruned_eq hrest hk hv hfound, Bool.and_eq_true, decide_eq_true_eq] at hp
      exact h.2.2 [n] rest kind (by simpa using ⟨hn, hrest⟩) (List.cons_ne_nil n []) hp.1 hp.2

theorem filterMap_flattenInside (h : Overlooks prune p g) (hvs : AllBelow p vs)
    (ih : ∀ w ∈ vs, ∀ q, Overlooks prune q g → w.StandsAt q →
      (w.flatten prune).filterMap g = (w.flatten fun _ => false).filterMap g) :
    (flattenInside prune vs).filterMap g = (flattenInside (fun _ => false) vs).filterMap g := by
  induction vs with
  | nil => rfl
  | cons v vs ihvs =>
    obtain ⟨⟨n, hn, hstands⟩, hrest⟩ := hvs
    have hfirst : (if v.isPruned prune then [] else v.flatten prune).filterMap g =
        (if v.isPruned (fun _ => false) then [] else v.flatten fun _ => false).filterMap g := by
      have hentered : v.isPruned (fun _ => false) = false := by
        cases v with
        | fault f => rfl
        | entry path kind inside => cases kind <;> rfl
      rw [hentered, if_neg Bool.false_ne_true]
      split
      next hp => exact (filterMap_pruned h hn hstands hp).symm
      next => exact ih v List.mem_cons_self _ (h.join hn) hstands
    rw [flattenInside_cons, flattenInside_cons, List.filterMap_append, List.filterMap_append, hfirst,
      ihvs hrest fun w hw => ih w (List.mem_cons_of_mem v hw)]

theorem filterMap_flatten (h : Overlooks prune p g) (hv : v.StandsAt p) :
    (v.flatten prune).filterMap g = (v.flatten fun _ => false).filterMap g := by
  induction v using inductionOn generalizing p with
  | fault f => rfl
  | entry path kind inside ih =>
    obtain ⟨rfl, -, hinside⟩ := hv
    rw [flatten, flatten, List.filterMap_cons, List.filterMap_cons,
      filterMap_flattenInside h hinside fun w hw q hq hstands => ih w hw hq hstands]

end

end Visit

namespace Node
variable {n : Node} {shows : Bytes → Bool} {onLink : List Ancestor → Path → Visit} {p : Path}
  {way : List Ancestor} {place : Place} {es : List (Bytes × Node)}

theorem allBelow_visitEntries (hn : ∀ e ∈ es, Disk.IsFileName e.1)
    (ih : ∀ e ∈ es, ∀ q, (e.2.visit shows onLink way (place ++ [e.1]) q).StandsAt q) :
    Visit.AllBelow p (visitEntries shows onLink way place p es) := by
  induction es with
  | nil => simp [visitEntries, Visit.AllBelow]
  | cons e es ihes =>
    obtain ⟨name, node⟩ := e
    have hrest := ihes (fun e he => hn e (by simp [he])) fun e he => ih e (by simp [he])
    rw [visitEntries]
    split
    · exact ⟨⟨name, hn _ List.mem_cons_self, ih _ List.mem_cons_self _⟩, hrest⟩
    · exact hrest

theorem standsAt_visit (hs : n.Sound) (hlink : ∀ way q, (onLink way q).StandsAt q) :
    (n.visit shows onLink way place p).StandsAt p := by
  induction n using inductionOn generalizing way place p with
  | file content modified => simp [visit, Visit.StandsAt, Visit.AllBelow]
  | link target => exact hlink way p
  | directory es ih =>
    rw [visit, Visit.StandsAt]
    refine ⟨rfl, fun _ => rfl, allBelow_visitEntries (hs [] es rfl).2 fun e he q => ?_⟩
    exact ih e he (hs.of_mem he)

end Node

namespace Disk
variable {disk : Disk} {path : Path} {followLinks : Bool} {prune : Path → Bool} {kind : Kind}

theorem at?_of_find {last : Bool} {place : Place} {n : Node} (h : disk.find last path = .ok (place, n)) :
    disk.top.at? place = some n := by
  unfold find at h
  cases hr : disk.resolve last path with
  | error fault =>
    rw [hr] at h
    cases h
  | ok found =>
    rw [hr] at h
    simp only [bind, Except.bind] at h
    split at h
    next node hat =>
      cases h
      exact hat
    next => cases h

theorem standsAt_ofLink (way : List Ancestor) (path : Path) :
    ((fun _ => Visit.ofLink) way path).StandsAt path := by
  simp [Visit.ofLink, Visit.StandsAt, Visit.AllBelow]

theorem standsAt_visitLink (links : Nat) (way : List Ancestor) (path : Path) :
    (disk.visitLink links way path).StandsAt path := by
  induction links generalizing way path with
  | zero => simp [visitLink, Visit.StandsAt]
  | succ links ih =>
    rw [visitLink]
    split
    · simp [Visit.StandsAt]
    next place node hfind =>
      have hnode : (node.visit (fun _ => true) (disk.visitLink links) way place path).StandsAt path :=
        Node.standsAt_visit (disk.sound.at (at?_of_find hfind)) ih
      split
      · split
        · simp [Visit.StandsAt]
        · exact hnode
      · exact hnode

/-- A walk begins with a fault or with an entry for its path, below which all else stands. A link at its
beginning is entered although it counts as a link, so that the entry itself need not be a directory. -/
theorem visit_eq (disk : Disk) (followLinks : Bool) (path : Path) :
    (∃ fault, disk.visit followLinks path = .fault fault) ∨
      ∃ kind inside, disk.visit followLinks path = .entry path kind inside ∧
        Visit.AllBelow path inside := by
  have hstands : ∀ v : Visit, v.StandsAt path → (∃ fault, v = .fault fault) ∨
      ∃ kind inside, v = .entry path kind inside ∧ Visit.AllBelow path inside := by
    intro v hv
    cases v with
    | fault fault => exact .inl ⟨fault, rfl⟩
    | entry p kind inside =>
      obtain ⟨rfl, -, hinside⟩ := hv
      exact .inr ⟨kind, inside, rfl, hinside⟩
  unfold visit
  split
  · exact .inl ⟨_, rfl⟩
  next place node hfind =>
    have hnode := disk.sound.at (at?_of_find hfind)
    split
    · split
      · exact hstands _ (standsAt_visitLink _ _ _)
      · exact hstands _ (Node.standsAt_visit hnode (standsAt_visitLink maxLinks))
    · split
      · split
        · exact .inl ⟨_, rfl⟩
        next found n hfound =>
          refine .inr ⟨.link, _, rfl, ?_⟩
          have hn := disk.sound.at (at?_of_find hfound)
          cases n with
          | directory es =>
            exact Node.allBelow_visitEntries hn.isFileName fun e he q =>
              Node.standsAt_visit (hn.of_mem he) standsAt_ofLink
          | _ => simp [Node.entries, visitEntries, Visit.AllBelow]
      · exact hstands _ (Node.standsAt_visit hnode standsAt_ofLink)

theorem exists_names_of_mem_walk {start q : Path}
    (h : .ok ⟨q, kind⟩ ∈ disk.walk followLinks prune start) :
    ∃ names, (∀ n ∈ names, IsFileName n) ∧ q = start.below names := by
  rw [walk] at h
  rcases disk.visit_eq followLinks start with ⟨fault, hv⟩ | ⟨k, inside, hv, hinside⟩
  · simp [hv, Visit.flatten] at h
  · rw [hv, Visit.flatten, List.mem_cons] at h
    rcases h with h | h
    · cases h
      exact ⟨[], by simp, rfl⟩
    · exact Visit.exists_names_of_mem_flattenInside hinside h

/-- A pruned walk meets a file or a link where the walk without pruning meets it and no directory on the
way to it is pruned. -/
theorem mem_walk_below_iff {start : Path} {names : List Bytes}
    (hn : ∀ n ∈ names, IsFileName n) (hk : kind ≠ .directory) :
    .ok ⟨start.below names, kind⟩ ∈ disk.walk followLinks prune start ↔
      .ok ⟨start.below names, kind⟩ ∈ disk.walk followLinks (fun _ => false) start ∧
        Visit.IsClear prune start names := by
  rw [walk, walk]
  rcases disk.visit_eq followLinks start with ⟨fault, hv⟩ | ⟨k, inside, hv, hinside⟩
  · simp [hv, Visit.flatten]
  · rw [hv]
    exact Visit.meetsClear_entry hinside hk (fun w _ q hstands => Visit.meetsClear hstands hk) names hn

theorem filterMap_walk {β : Type} {g : Found → Option β} {start : Path}
    (h : Visit.Overlooks prune start g) : (disk.walk followLinks prune start).filterMap g =
      (disk.walk followLinks (fun _ => false) start).filterMap g := by
  rw [walk, walk]
  rcases disk.visit_eq followLinks start with ⟨fault, hv⟩ | ⟨k, inside, hv, hinside⟩
  · rw [hv]
    rfl
  · rw [hv, Visit.flatten, Visit.flatten, List.filterMap_cons, List.filterMap_cons,
      Visit.filterMap_flattenInside h hinside fun w _ q hq hstands => Visit.filterMap_flatten hq hstands]

end Disk
end Folio
