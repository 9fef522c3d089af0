import Mathlib.Data.List.Basic
import Mathlib.Data.List.Induction
import Folio.Proofs.Disk.Travel
import Folio.Proofs.Path.Below

/-!
# Cleaned paths on a disk

Cleaning cancels a name against the step up behind it without a look at the disk. On the disk the step up
leaves the directory that was reached, which is the one that the name stands in unless the name is that of a
link. So a path and the cleaned path lead to one place as long as no name of a link is cancelled.
-/
namespace Folio

namespace Path
variable {p : Path}

/-- The path that cleaned components are written as, which is a dot if there are none. -/
def ofComponents : List Component → Path
  | [] => ⟨[dot]⟩
  | c :: cs => ⟨written (c :: cs)⟩

theorem clean_eq (p : Path) : p.clean = ofComponents (cleanComponents p.components) := by
  rw [clean]
  cases cleanComponents p.components <;> rfl

def origin (p : Path) : List Component := if p.isAbsolute then [.root] else []

theorem components_eq_lead_append (p : Path) :
    p.components = p.lead ++ (Disk.steps p.bytes).filterMap Disk.Step.component? := by
  rw [components_eq, Disk.steps, List.filterMap_map]
  congr 2
  funext piece
  exact Disk.ofPiece?_eq piece

theorem foldl_cleanStep_lead (p : Path) : p.lead.foldl cleanStep [] = p.origin := by
  unfold lead origin
  split
  · rfl
  · split <;> rfl

theorem cleanComponents_lead_append (cs : List Component) :
    cleanComponents (p.lead ++ cs) = (cs.foldl cleanStep p.origin).reverse := by
  rw [cleanComponents, List.foldl_append, foldl_cleanStep_lead]

theorem reverse_origin (p : Path) : p.origin.reverse = p.origin := by
  unfold origin
  split <;> rfl

end Path

namespace Disk
open Folio.Path (slash dot)
open Folio.Path
variable {disk : Disk} {p : Path} {t : Bytes} {body : List Step} {step : Step} {place : Place} {n : Node}
  {last : Bool} {links : Nat}

def IsLink (disk : Disk) (p : Path) : Prop := ∃ place target, disk.find false p = .ok (place, .link target)

/-- A step up stands in the path right behind what is, cleaned, the path of a link. -/
def CancelsLink (disk : Disk) (p : Path) : Prop :=
  ∃ front, front ++ [.up] <+: p.components ∧ disk.IsLink (ofComponents (cleanComponents front))

def Step.piece : Step → Bytes
  | .stay => [dot]
  | .up => [dot, dot]
  | .into name => name

theorem ofPiece_piece (h : step ∈ steps t) : Step.ofPiece step.piece = step := by
  cases step with
  | stay => rfl
  | up => rfl
  | into name => exact (isPiece_of_mem_steps h).into

theorem slash_notMem_piece (h : step ∈ steps t) : slash ∉ step.piece := by
  cases step with
  | stay => decide
  | up => decide
  | into name => exact (isPiece_of_mem_steps h).no_slash

theorem piece_ne_nil (h : step ∈ steps t) : step.piece ≠ [] := by
  intro he
  have hpiece := ofPiece_piece h
  rw [he] at hpiece
  rw [← hpiece] at he
  cases he

theorem mem_piece {c : UInt8} (h : step ∈ steps t) (hc : c ∈ step.piece) : c = dot ∨ c ∈ t := by
  cases step with
  | stay => exact .inl (List.mem_singleton.1 hc)
  | up => exact .inl (by simpa [Step.piece] using hc)
  | into name =>
    obtain ⟨piece, hpiece, hname⟩ := List.mem_map.1 h
    obtain rfl := eq_of_ofPiece_into hname
    exact .inr (Text.subset_of_mem_splitOn hpiece hc)

/-- Steps of a path, none of which stays. -/
def AreMoves (t : Bytes) (body : List Step) : Prop := ∀ step ∈ body, step ∈ steps t ∧ step ≠ .stay

theorem filterMap_piece? (hb : AreMoves t body) :
    (body.filterMap Step.component?).filterMap Component.piece? = body.map Step.piece := by
  induction body with
  | nil => rfl
  | cons step body ih =>
    have hrest := ih fun s hs => hb s (List.mem_cons_of_mem _ hs)
    cases step with
    | stay => exact absurd rfl (hb _ List.mem_cons_self).2
    | up => simpa [Step.component?, Component.piece?, Step.piece] using hrest
    | into name => simpa [Step.component?, Component.piece?, Step.piece] using hrest

theorem exists_steps_intercalate (hb : AreMoves t body) :
    ∃ n, steps ([slash].intercalate (body.map Step.piece)) = List.replicate n .stay ++ body := by
  by_cases hnil : body = []
  · subst hnil
    exact ⟨1, rfl⟩
  · refine ⟨0, ?_⟩
    have hslash : ∀ piece ∈ body.map Step.piece, slash ∉ piece := by
      intro piece hp
      obtain ⟨step, hs, rfl⟩ := List.mem_map.1 hp
      exact slash_notMem_piece (hb step hs).1
    rw [steps, List.splitOn_intercalate slash hslash (by simpa using hnil), List.map_map]
    exact (List.map_congr_left fun step hs => ofPiece_piece (hb step hs).1).trans (List.map_id body)

theorem bytes_ofComponents (hb : AreMoves t body) :
    (ofComponents (p.origin ++ body.filterMap Step.component?)).bytes =
      if p.isAbsolute then slash :: [slash].intercalate (body.map Step.piece)
      else if body = [] then [dot] else [slash].intercalate (body.map Step.piece) := by
  have hpieces := filterMap_piece? hb
  unfold origin
  split
  · rw [List.singleton_append, ofComponents, written, List.filterMap_cons_none rfl, hpieces]
    rfl
  · cases body with
    | nil => rfl
    | cons step body =>
      obtain ⟨c, hc, hroot⟩ : ∃ c, step.component? = some c ∧ c ≠ .root := by
        cases step with
        | stay => exact absurd rfl (hb _ List.mem_cons_self).2
        | up => exact ⟨.up, rfl, by simp⟩
        | into name => exact ⟨.name name, rfl, by simp⟩
      rw [List.filterMap_cons_some hc] at hpieces ⊢
      rw [List.nil_append, ofComponents, written, hpieces]
      simp [hroot]

theorem head?_intercalate_piece (hb : AreMoves t body) (hne : body ≠ []) :
    ∃ c, ([slash].intercalate (body.map Step.piece)).head? = some c ∧ c ≠ slash := by
  obtain ⟨step, rest, rfl⟩ := List.exists_cons_of_ne_nil hne
  have hs := (hb step List.mem_cons_self).1
  obtain ⟨c, piece, hpiece⟩ := List.exists_cons_of_ne_nil (piece_ne_nil hs)
  have hslash := slash_notMem_piece hs
  rw [List.map_cons, Text.head?_intercalate_cons (piece_ne_nil hs), hpiece]
  exact ⟨c, rfl, by rintro rfl; simp [hpiece] at hslash⟩

theorem exists_steps_ofComponents (hb : AreMoves p.bytes body) :
    let q := ofComponents (p.origin ++ body.filterMap Step.component?)
    (∃ c, q.bytes.head? = some c ∧ (c = slash ↔ p.isAbsolute = true)) ∧
      (∀ c ∈ q.bytes, c = slash ∨ c = dot ∨ c ∈ p.bytes) ∧
      ∃ n, steps q.bytes = List.replicate n .stay ++ body := by
  intro q
  have hbytes := bytes_ofComponents (p := p) hb
  have hmem : ∀ c ∈ [slash].intercalate (body.map Step.piece), c = slash ∨ c = dot ∨ c ∈ p.bytes := by
    intro c hc
    refine (Text.mem_intercalate hc).imp_right ?_
    rintro ⟨piece, hp, hc⟩
    obtain ⟨step, hs, rfl⟩ := List.mem_map.1 hp
    exact mem_piece (hb step hs).1 hc
  obtain ⟨n, hn⟩ := exists_steps_intercalate hb
  cases habs : p.isAbsolute with
  | true =>
    rw [habs, if_pos rfl] at hbytes
    refine ⟨⟨slash, by rw [hbytes]; rfl, by simp⟩, fun c hc => ?_, n + 1, ?_⟩
    · rw [hbytes] at hc
      exact (List.mem_cons.1 hc).elim .inl (hmem c)
    · have hslash := steps_append [] ([slash].intercalate (body.map Step.piece))
      rw [hbytes, ← List.nil_append (slash :: _), hslash, hn]
      rfl
  | false =>
    rw [habs, if_neg (by simp)] at hbytes
    by_cases hnil : body = []
    · rw [if_pos hnil] at hbytes
      rw [hbytes]
      exact ⟨⟨dot, rfl, by simp⟩, by simp, 1, by rw [hnil]; rfl⟩
    · rw [if_neg hnil] at hbytes
      rw [hbytes]
      obtain ⟨c, hc, hslash⟩ := head?_intercalate_piece hb hnil
      exact ⟨⟨c, hc, by simp [hslash]⟩, hmem, n, hn⟩

theorem find_ofComponents (hb : AreMoves p.bytes body) (hnul : 0 ∉ p.bytes)
    (hstart : ∃ es, disk.top.at? (startOf disk.current p.bytes) = some (.directory es))
    (htravel : travel disk.top last maxLinks (startOf disk.current p.bytes) body = .ok (links, place))
    (hat : disk.top.at? place = some n) :
    disk.find last (ofComponents (p.origin ++ body.filterMap Step.component?)) = .ok (place, n) := by
  obtain ⟨⟨c, hc, habs⟩, hmem, k, hk⟩ := exists_steps_ofComponents hb
  obtain ⟨es, hes⟩ := hstart
  generalize ofComponents (p.origin ++ body.filterMap Step.component?) = q at hc hmem hk ⊢
  have hsame : startOf disk.current q.bytes = startOf disk.current p.bytes := by
    simp [startOf, hc, habs, isAbsolute]
  refine find_eq_ok_iff_travel.2 ⟨⟨?_, fun hq => ?_⟩, ⟨links, ?_⟩, hat⟩
  · rintro hnil
    simp [hnil] at hc
  · simpa [hnul] using hmem _ hq
  · rw [hsame, hk, travel_stays hes]
    exact htravel

/-- Cleaning leaves `body` of the first steps of a path, and both lead to the same place. -/
structure CleansTo (disk : Disk) (p : Path) (front body : List Step) (reached : Nat × Place) : Prop where
  moves : AreMoves p.bytes body
  clean_eq : (front.filterMap Step.component?).foldl cleanStep p.origin =
    (body.filterMap Step.component?).reverse ++ p.origin
  travel_eq : travel disk.top true maxLinks (startOf disk.current p.bytes) body = .ok reached

variable {front outer : List Step} {reached mid : Nat × Place} {name : Bytes}

theorem CleansTo.cleanComponents_eq (h : disk.CleansTo p front body reached) :
    cleanComponents (p.lead ++ front.filterMap Step.component?) =
      p.origin ++ body.filterMap Step.component? := by
  rw [cleanComponents_lead_append, h.clean_eq, List.reverse_append, List.reverse_reverse, reverse_origin]

theorem CleansTo.foldl_concat {c : Component} (h : disk.CleansTo p front body reached)
    (hc : step.component? = some c) :
    ((front ++ [step]).filterMap Step.component?).foldl cleanStep p.origin =
      cleanStep ((body.filterMap Step.component?).reverse ++ p.origin) c := by
  rw [List.filterMap_append, List.foldl_append, h.clean_eq, List.filterMap_cons_some hc]
  rfl

theorem CleansTo.stay (h : disk.CleansTo p front body reached) :
    disk.CleansTo p (front ++ [.stay]) body reached := by
  refine ⟨h.moves, ?_, h.travel_eq⟩
  rw [← h.clean_eq, List.filterMap_append, List.foldl_append]
  rfl

/-- A step that cancels nothing is made after the others. -/
theorem CleansTo.push {c : Component} (h : disk.CleansTo p front body mid) (hmem : step ∈ steps p.bytes)
    (hc : step.component? = some c)
    (hpush : cleanStep ((body.filterMap Step.component?).reverse ++ p.origin) c =
      c :: ((body.filterMap Step.component?).reverse ++ p.origin))
    (hstep : travel disk.top true mid.1 mid.2 [step] = .ok reached) :
    disk.CleansTo p (front ++ [step]) (body ++ [step]) reached := by
  refine ⟨fun s hs => ?_, ?_, ?_⟩
  · rcases List.mem_append.1 hs with hs | hs
    · exact h.moves s hs
    · obtain rfl := List.mem_singleton.1 hs
      exact ⟨hmem, by rintro rfl; cases hc⟩
  · rw [h.foldl_concat hc, hpush, List.filterMap_append, List.filterMap_cons_some hc]
    simp
  · rw [travel_append (by simp), h.travel_eq]
    exact hstep

section
variable (hcancel : ¬ disk.CancelsLink p) (hnul : 0 ∉ p.bytes)
  (hstart : ∃ es, disk.top.at? (startOf disk.current p.bytes) = some (.directory es))
include hcancel hnul hstart

/-- The name in front of a step up is not the name of a link. -/
theorem CleansTo.isLink_eq_false (h : disk.CleansTo p front (outer ++ [.into name]) reached)
    (hfront : front ++ [.up] <+: steps p.bytes) {es : List (Bytes × Node)} {m : Node}
    (houter : travel disk.top true maxLinks (startOf disk.current p.bytes) outer = .ok mid)
    (hes : disk.top.at? mid.2 = some (.directory es)) (hsize : name.length ≤ maxNameSize)
    (hm : es.lookup name = some m) : m.isLink = false := by
  cases m with
  | file content modified => rfl
  | directory inner => rfl
  | link target =>
    refine absurd ⟨p.lead ++ front.filterMap Step.component?, ?_, mid.2 ++ [name], target, ?_⟩ hcancel
    · obtain ⟨rest, hrest⟩ := hfront
      refine ⟨rest.filterMap Step.component?, ?_⟩
      rw [components_eq_lead_append, ← hrest, List.filterMap_append, List.filterMap_append]
      simp [Step.component?]
    · have hend : travel disk.top false maxLinks (startOf disk.current p.bytes) (outer ++ [.into name]) =
          .ok (mid.1, mid.2 ++ [name]) := by
        rw [travel_append (by simp), houter]
        exact travel_into hes hsize hm fun _ => rfl
      rw [h.cleanComponents_eq]
      refine find_ofComponents h.moves hnul hstart hend ?_
      rw [at?_child hes, hm]

theorem CleansTo.cancel (h : disk.CleansTo p front (outer ++ [.into name]) reached)
    (hfront : front ++ [.up] <+: steps p.bytes) :
    disk.CleansTo p (front ++ [.up]) outer (reached.1, reached.2.dropLast) := by
  have htravel := h.travel_eq
  rw [travel_append (by simp), bind_eq_ok_iff] at htravel
  obtain ⟨mid, hmid, hinto⟩ := htravel
  obtain ⟨es, m, hes, hsize, hm⟩ := exists_of_travel_into hinto
  have hlink : m.isLink = false := h.isLink_eq_false hcancel hnul hstart hfront hmid hes hsize hm
  rw [travel_into hes hsize hm (by simp [hlink])] at hinto
  cases hinto
  refine ⟨fun s hs => h.moves s (List.mem_append_left _ hs), ?_, ?_⟩
  · rw [h.foldl_concat (c := .up) rfl]
    simp [Step.component?, cleanStep]
  · rw [hmid]
    simp

theorem CleansTo.up (h : disk.CleansTo p front body reached) (hfront : front ++ [.up] <+: steps p.bytes)
    {es : List (Bytes × Node)} (hes : disk.top.at? reached.2 = some (.directory es)) :
    ∃ body, disk.CleansTo p (front ++ [.up]) body (reached.1, reached.2.dropLast) := by
  have hmem : .up ∈ steps p.bytes := hfront.subset (by simp)
  rcases List.eq_nil_or_concat' body with rfl | ⟨outer, step, rfl⟩
  · cases habs : p.isAbsolute with
    | false => exact ⟨_, h.push hmem rfl (by simp [origin, habs, cleanStep]) (travel_up hes)⟩
    | true =>
      -- at the top a step up stays where it is
      have hhere : startOf disk.current p.bytes = [] := if_pos (by simpa [isAbsolute] using habs)
      have htravel := h.travel_eq
      rw [travel, hhere] at htravel
      cases htravel
      refine ⟨[], h.moves, ?_, ?_⟩
      · rw [h.foldl_concat (c := .up) rfl]
        simp [origin, habs, cleanStep]
      · rw [hhere, travel]
        rfl
  · cases step with
    | stay => exact absurd rfl (h.moves .stay (by simp)).2
    | up => exact ⟨_, h.push hmem rfl (by simp [Step.component?, cleanStep]) (travel_up hes)⟩
    | into name => exact ⟨outer, h.cancel hcancel hnul hstart hfront⟩

theorem exists_cleansTo (hfront : front <+: steps p.bytes)
    (h : travel disk.top true maxLinks (startOf disk.current p.bytes) front = .ok reached) :
    ∃ body, disk.CleansTo p front body reached := by
  induction front using List.reverseRecOn generalizing reached with
  | nil => exact ⟨[], by simp [AreMoves], rfl, h⟩
  | append_singleton front step ih =>
    rw [travel_append (by simp), bind_eq_ok_iff] at h
    obtain ⟨mid, hmid, hstep⟩ := h
    obtain ⟨es, hes⟩ := exists_entries_of_travel hstep (by simp)
    obtain ⟨body, hbody⟩ := ih ((List.prefix_append _ _).trans hfront) hmid
    cases step with
    | stay =>
      rw [travel_stay hes] at hstep
      cases hstep
      exact ⟨body, hbody.stay⟩
    | up =>
      rw [travel_up hes] at hstep
      cases hstep
      exact hbody.up hcancel hnul hstart hfront hes
    | into name =>
      exact ⟨_, hbody.push (hfront.subset (by simp)) rfl rfl hstep⟩

end

/-- A cleaned path leads where the path leads, unless cleaning cancels the name of a link. -/
theorem find_clean (hcancel : ¬ disk.CancelsLink p) (h : disk.find true p = .ok (place, n)) :
    disk.find true p.clean = .ok (place, n) := by
  obtain ⟨⟨hnil, hnul⟩, ⟨links, htravel⟩, hat⟩ := find_eq_ok_iff_travel.1 h
  have hstart := exists_entries_of_travel htravel (steps_ne_nil p.bytes)
  obtain ⟨body, hbody⟩ := exists_cleansTo hcancel hnul hstart List.prefix_rfl htravel
  rw [Path.clean_eq, components_eq_lead_append, hbody.cleanComponents_eq]
  exact find_ofComponents hbody.moves hnul hstart hbody.travel_eq hat

end Disk
end Folio
