import Folio.Text.Basic

/-!
# Indexes

An index lists values under distinct keys, in ascending order of the keys. `alter` keeps the order
and touches one key only.
-/
namespace Folio

/-- Values under keys, ascending by key. -/
abbrev Index (κ α : Type) := List (κ × α)

namespace Index
variable {κ α : Type}

def find? [BEq κ] (key : κ) (index : Index κ α) : Option α := List.lookup key index

def erase [DecidableEq κ] (key : κ) (index : Index κ α) : Index κ α :=
  index.filter fun entry => entry.1 ≠ key

def Ascending [LT κ] (index : Index κ α) : Prop := index.Pairwise fun a b => a.1 < b.1

instance [LT κ] [DecidableLT κ] (index : Index κ α) : Decidable index.Ascending :=
  inferInstanceAs (Decidable (index.Pairwise fun a b => a.1 < b.1))

section Changes
variable [LT κ] [DecidableLT κ] [DecidableEq κ]

/-- Put `f` of the present value, if any, under `key`. -/
def alter (key : κ) (f : Option α → α) : Index κ α → Index κ α
  | [] => [(key, f none)]
  | (k, v) :: rest =>
    if key < k then (key, f none) :: (k, v) :: rest
    else if key = k then (k, f (some v)) :: rest
    else (k, v) :: alter key f rest

/-- Put `value` under `key`, in place of what stood there. -/
def insert (key : κ) (value : α) (index : Index κ α) : Index κ α := index.alter key fun _ => value

/-- The index of a list of entries, in which a later entry replaces an earlier one. -/
def ofList (entries : List (κ × α)) : Index κ α :=
  entries.foldl (fun index entry => insert entry.1 entry.2 index) []

end Changes

section Keys
variable {index : Index κ α} {key k : κ} {v : α}

theorem Ascending.nodup [LT κ] [LE κ] [Std.LawfulOrderLT κ] (h : index.Ascending) :
    (index.map (·.1)).Nodup := by
  refine List.pairwise_map.2 (h.imp fun {a b} hlt he => ?_)
  rw [he] at hlt
  exact Std.lt_irrefl hlt

variable [DecidableEq κ]

theorem mem_alter_key [LT κ] [DecidableLT κ] {f : Option α → α} (h : (k, v) ∈ index.alter key f) :
    k = key ∨ ∃ w, (k, w) ∈ index := by
  induction index with
  | nil =>
    simp only [alter, List.mem_singleton, Prod.mk.injEq] at h
    exact .inl h.1
  | cons e rest ih =>
    obtain ⟨k₁, v₁⟩ := e
    unfold alter at h
    split at h
    · rcases List.mem_cons.1 h with h | h
      · exact .inl (Prod.mk.inj h).1
      · exact .inr ⟨v, h⟩
    · split at h
      next hk =>
        rcases List.mem_cons.1 h with h | h
        · exact .inl ((Prod.mk.inj h).1.trans hk.symm)
        · exact .inr ⟨v, List.mem_cons_of_mem _ h⟩
      next =>
        rcases List.mem_cons.1 h with h | h
        · exact .inr ⟨v, h ▸ List.mem_cons_self⟩
        · rcases ih h with h | ⟨w, h⟩
          · exact .inl h
          · exact .inr ⟨w, List.mem_cons_of_mem _ h⟩

theorem Ascending.erase [LT κ] (h : index.Ascending) (key : κ) : (index.erase key).Ascending :=
  List.Pairwise.filter _ h

theorem Ascending.alter [LT κ] [DecidableLT κ] [LE κ] [Std.IsLinearOrder κ] [Std.LawfulOrderLT κ]
    (h : index.Ascending) (key : κ) (f : Option α → α) : (index.alter key f).Ascending := by
  induction index with
  | nil => simp [Index.alter, Ascending]
  | cons e rest ih =>
    obtain ⟨k₁, v₁⟩ := e
    obtain ⟨h₁, h₂⟩ := List.pairwise_cons.1 h
    unfold Index.alter
    split
    next hlt =>
      refine List.pairwise_cons.2 ⟨fun e he => ?_, h⟩
      rcases List.mem_cons.1 he with rfl | he
      · exact hlt
      · exact Std.lt_trans hlt (h₁ e he)
    next hlt =>
      split
      next => exact List.pairwise_cons.2 ⟨h₁, h₂⟩
      next hne =>
        refine List.pairwise_cons.2 ⟨fun e he => ?_, ih h₂⟩
        rcases mem_alter_key (v := e.2) he with hk | ⟨w, hw⟩
        · rcases Std.lt_trichotomy k₁ key with hc | hc | hc
          · exact hk ▸ hc
          · exact absurd hc.symm hne
          · exact absurd hc hlt
        · exact h₁ (e.1, w) hw

theorem ascending_ofList [LT κ] [DecidableLT κ] [LE κ] [Std.IsLinearOrder κ] [Std.LawfulOrderLT κ]
    (entries : List (κ × α)) : (ofList entries).Ascending :=
  List.foldlRecOn entries _ List.Pairwise.nil fun _ h _ _ => h.alter _ _

end Keys

section Lookups
variable [BEq κ] [LawfulBEq κ] {index : Index κ α} {key k : κ} {v : α}

theorem find?_cons [DecidableEq κ] :
    find? k ((key, v) :: index) = if k = key then some v else find? k index := by
  by_cases hk : k = key
  · simp [find?, hk]
  · have hb : (k == key) = false := by simpa using hk
    simp [find?, List.lookup_cons, hb, hk]

theorem find?_erase [DecidableEq κ] :
    (index.erase key).find? k = if k = key then none else index.find? k := by
  induction index with
  | nil => simp [erase, find?]
  | cons entry index ih =>
    obtain ⟨name, value⟩ := entry
    rw [erase] at ih ⊢
    by_cases hname : name = key
    · rw [List.filter_cons_of_neg (by simpa using hname), ih, find?_cons, hname]
      split <;> rfl
    · rw [List.filter_cons_of_pos (by simpa using hname), find?_cons, find?_cons, ih]
      by_cases hk : k = name
      · simp [hk, hname]
      · simp [hk]

variable [DecidableEq κ] [LT κ] [LE κ] [Std.LawfulOrderLT κ]

theorem find?_eq_none (h : ∀ e ∈ index, key < e.1) : find? key index = none := by
  induction index with
  | nil => rfl
  | cons e index ih =>
    have hne : key ≠ e.1 := fun he => Std.lt_irrefl (he ▸ h e (by simp))
    rw [find?_cons, if_neg hne, ih fun e he => h e (by simp [he])]

theorem mem_iff_find? (h : index.Ascending) : (k, v) ∈ index ↔ find? k index = some v := by
  induction index with
  | nil => simp [find?]
  | cons e rest ih =>
    obtain ⟨k₁, w⟩ := e
    obtain ⟨hfirst, hrest⟩ := List.pairwise_cons.1 h
    rw [find?_cons, List.mem_cons, ih hrest, Prod.mk.injEq]
    by_cases hk : k = k₁
    · simp [hk, find?_eq_none hfirst, eq_comm]
    · simp [hk]

variable [Std.IsLinearOrder κ]

theorem find?_alter [DecidableLT κ] (h : index.Ascending) (f : Option α → α) (key k : κ) :
    find? k (index.alter key f) = if k = key then some (f (find? key index)) else find? k index := by
  induction index with
  | nil => exact find?_cons
  | cons e rest ih =>
    obtain ⟨k₁, v⟩ := e
    obtain ⟨hfirst, hrest⟩ := List.pairwise_cons.1 h
    unfold alter
    split
    next hlt =>
      have hnone : find? key ((k₁, v) :: rest) = none := by
        apply find?_eq_none
        intro e he
        rcases List.mem_cons.1 he with rfl | he
        · exact hlt
        · exact Std.lt_trans hlt (hfirst e he)
      rw [find?_cons, hnone]
    next =>
      split
      next hk =>
        subst hk
        rw [find?_cons, find?_cons, find?_cons, if_pos rfl]
        split <;> rfl
      next hk =>
        rw [find?_cons, ih hrest, find?_cons, find?_cons, if_neg hk]
        by_cases hk₁ : k = k₁
        · have hne : k ≠ key := fun he => hk (he ▸ hk₁)
          simp [hk₁, hk₁ ▸ hne]
        · simp [hk₁]

end Lookups

end Index
end Folio
