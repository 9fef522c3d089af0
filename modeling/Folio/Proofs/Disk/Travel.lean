import Folio.Proofs.Path.Inside

/-!
# Paths in parts

A path may cross a limited number of links. So a part of a path leads to a place and leaves a number of links
for the rest, and with that number the rest is followed from there as if it stood alone.
-/
namespace Folio.Disk
open Folio.Path (slash dot)
variable {top : Node} {last : Bool} {links : Nat} {here place : Place} {ss more : List Step}
  {reached : Nat × Place} {es : List (Bytes × Node)} {name : Bytes}

/-- Where steps lead, and how many more links may be crossed from there on. -/
def travel (top : Node) (last : Bool) (links : Nat) (here : Place) :
    List Step → Except Fault (Nat × Place)
  | [] => .ok (links, here)
  | step :: rest =>
    match top.at? here with
    | some (.directory es) =>
      match step with
      | .stay => travel top last links here rest
      | .up => travel top last links here.dropLast rest
      | .into name =>
        if maxNameSize < name.length then .error .nameTooLong
        else match es.lookup name with
          | none => .error .missing
          | some (.link target) =>
            if rest.isEmpty && !last then .ok (links, here ++ [name])
            else match links with
              | 0 => .error .tooManyLinks
              | links + 1 => travel top last links (startOf here target) (steps target ++ rest)
          | some _ => travel top last links (here ++ [name]) rest
    | _ => .error .notDirectory
termination_by ss => (links, ss.length)

theorem follow_eq_map_travel :
    follow top last links here ss = (travel top last links here ss).map Prod.snd := by
  fun_induction follow top last links here ss with
  | case1 => rw [travel, Except.map]
  | case2 _ _ _ _ hes ih | case3 _ _ _ _ hes ih =>
    rw [travel, hes]
    exact ih
  | case4 _ _ _ _ hes _ hsize => simp [Except.map, travel, hes, hsize]
  | case5 _ _ _ _ hes _ hsize hlookup => simp [Except.map, travel, hes, hsize, hlookup]
  | case6 _ _ _ _ hes _ hsize _ hlookup hend => simp [Except.map, travel, hes, hsize, hlookup, hend]
  | case7 _ _ _ hes _ hsize _ hlookup hend => simp [Except.map, travel, hes, hsize, hlookup, hend]
  | case8 _ _ _ hes _ hsize _ hlookup hend _ ih =>
    rw [travel, hes]
    simp only [hsize, if_false, hlookup, hend]
    exact ih
  | case9 _ _ _ _ hes _ hsize _ hm hlookup ih =>
    rw [travel, hes]
    simp only [hsize, if_false, hlookup]
    exact ih
  | case10 => simp [Except.map, travel]

/-- A part of a path is followed to its end, links included, unless it is the whole path. -/
theorem travel_append (hlast : more = [] → last = true) : travel top last links here (ss ++ more) =
    travel top true links here ss >>= fun reached => travel top last reached.1 reached.2 more := by
  have hend (rest : List Step) : ((rest ++ more).isEmpty && !last) = false := by
    cases rest <;> cases more <;> simp_all
  fun_induction travel top true links here ss with
  | case1 => rfl
  | case2 _ _ _ _ hes ih | case3 _ _ _ _ hes ih =>
    rw [List.cons_append, travel, hes]
    exact ih
  | case4 _ _ _ _ hes _ hsize =>
    rw [List.cons_append, travel, hes]
    simp only [hsize, if_true]
    rfl
  | case5 _ _ _ _ hes _ hsize hlookup =>
    rw [List.cons_append, travel, hes]
    simp only [hsize, if_false, hlookup]
    rfl
  | case6 _ _ _ _ _ _ _ _ _ hlink => simp at hlink
  | case7 _ _ _ hes _ hsize _ hlookup =>
    rw [List.cons_append, travel, hes]
    simp only [hsize, if_false, hlookup, hend]
    rfl
  | case8 _ _ _ hes _ hsize _ hlookup _ _ ih =>
    rw [List.cons_append, travel, hes]
    simp only [hsize, if_false, hlookup, hend, Bool.false_eq_true, ← List.append_assoc]
    exact ih
  | case9 _ _ _ _ hes _ hsize _ hm hlookup ih =>
    rw [List.cons_append, travel, hes]
    simp only [hsize, if_false, hlookup]
    exact ih
  | case10 =>
    rw [List.cons_append]
    simp [travel, bind, Except.bind]

theorem exists_entries_of_travel (h : travel top last links here ss = .ok reached) (hne : ss ≠ []) :
    ∃ es, top.at? here = some (.directory es) := by
  obtain ⟨step, rest, rfl⟩ := List.exists_cons_of_ne_nil hne
  rw [travel] at h
  split at h
  next es hes => exact ⟨es, hes⟩
  next => cases h

theorem travel_stays (hes : top.at? here = some (.directory es)) (n : Nat) :
    travel top last links here (List.replicate n .stay ++ ss) = travel top last links here ss := by
  induction n with
  | zero => rfl
  | succ n ih =>
    rw [List.replicate_succ, List.cons_append, travel, hes]
    exact ih

theorem travel_stay (hes : top.at? here = some (.directory es)) :
    travel top last links here [.stay] = .ok (links, here) := by
  rw [travel, hes]
  dsimp only
  rw [travel]

theorem travel_up (hes : top.at? here = some (.directory es)) :
    travel top last links here [.up] = .ok (links, here.dropLast) := by
  rw [travel, hes]
  dsimp only
  rw [travel]

theorem travel_into (hes : top.at? here = some (.directory es)) (hsize : name.length ≤ maxNameSize)
    {m : Node} (hm : es.lookup name = some m) (hlink : m.isLink = true → last = false) :
    travel top last links here [.into name] = .ok (links, here ++ [name]) := by
  rw [travel, hes]
  simp only [Nat.not_lt.2 hsize, if_false, hm]
  cases m with
  | link target => simp [hlink rfl]
  | file content modified => rw [travel]
  | directory inner => rw [travel]

theorem exists_of_travel_into (h : travel top last links here [.into name] = .ok reached) :
    ∃ es m, top.at? here = some (.directory es) ∧ name.length ≤ maxNameSize ∧
      es.lookup name = some m := by
  obtain ⟨es, hes⟩ := exists_entries_of_travel h (List.cons_ne_nil _ _)
  rw [travel, hes] at h
  dsimp only at h
  split at h
  · cases h
  next hsize =>
    cases hm : es.lookup name with
    | none => simp [hm] at h
    | some m => exact ⟨es, m, hes, Nat.not_lt.1 hsize, hm⟩

variable {disk : Disk} {path : Path} {n : Node}

theorem find_eq_ok_iff_travel : disk.find last path = .ok (place, n) ↔
    (path.bytes ≠ [] ∧ 0 ∉ path.bytes) ∧
      (∃ links, travel disk.top last maxLinks (startOf disk.current path.bytes) (steps path.bytes) =
        .ok (links, place)) ∧ disk.top.at? place = some n := by
  rw [find_eq_ok_iff, resolve, follow_eq_map_travel]
  by_cases hnil : path.bytes = []
  · simp [hnil]
  by_cases hnul : 0 ∈ path.bytes
  · simp [hnil, hnul]
  cases travel disk.top last maxLinks (startOf disk.current path.bytes) (steps path.bytes) with
  | error fault => simp [Except.map, hnil, hnul]
  | ok reached => simp [Except.map, hnil, hnul, Prod.ext_iff]

/-- Where no link stands at the end of a path, it does not matter whether one would be followed there. -/
theorem find_true_of_find_false (h : disk.find false path = .ok (place, n)) (hn : n.isLink = false) :
    disk.find true path = .ok (place, n) := by
  obtain ⟨htext, ⟨links, htravel⟩, hat⟩ := find_eq_ok_iff_travel.1 h
  refine find_eq_ok_iff_travel.2 ⟨htext, ⟨links, ?_⟩, hat⟩
  rw [← List.dropLast_concat_getLast (steps_ne_nil path.bytes)] at htravel ⊢
  rw [travel_append (by simp), bind_eq_ok_iff] at htravel ⊢
  obtain ⟨mid, hmid, hstep⟩ := htravel
  refine ⟨mid, hmid, ?_⟩
  obtain ⟨es, hes⟩ := exists_entries_of_travel hstep (by simp)
  cases hlast : (steps path.bytes).getLast (steps_ne_nil path.bytes) with
  | stay =>
    rw [hlast, travel_stay hes] at hstep
    rw [travel_stay hes, hstep]
  | up =>
    rw [hlast, travel_up hes] at hstep
    rw [travel_up hes, hstep]
  | into name =>
    rw [hlast] at hstep
    obtain ⟨inner, m, hinner, hsize, hm⟩ := exists_of_travel_into hstep
    rw [travel_into hinner hsize hm fun _ => rfl] at hstep
    cases hstep
    rw [at?_child hinner, hm] at hat
    cases hat
    exact travel_into hinner hsize hm (by simp [hn])

/-- Where a path leads with links followed to the end, something stands at its end, if only a link. -/
theorem exists_find_false_of_find_true (h : disk.find true path = .ok (place, n)) :
    ∃ place n, disk.find false path = .ok (place, n) := by
  obtain ⟨htext, ⟨links, htravel⟩, hat⟩ := find_eq_ok_iff_travel.1 h
  rw [← List.dropLast_concat_getLast (steps_ne_nil path.bytes), travel_append (by simp),
    bind_eq_ok_iff] at htravel
  obtain ⟨mid, hmid, hstep⟩ := htravel
  have hsplit (reached : Nat × Place)
      (hlast : travel disk.top false mid.1 mid.2 [(steps path.bytes).getLast (steps_ne_nil path.bytes)] =
        .ok reached) :
      travel disk.top false maxLinks (startOf disk.current path.bytes) (steps path.bytes) = .ok reached := by
    rw [← List.dropLast_concat_getLast (steps_ne_nil path.bytes), travel_append (by simp), bind_eq_ok_iff]
    exact ⟨mid, hmid, hlast⟩
  obtain ⟨es, hes⟩ := exists_entries_of_travel hstep (by simp)
  cases hlast : (steps path.bytes).getLast (steps_ne_nil path.bytes) with
  | stay =>
    rw [hlast, travel_stay hes] at hstep
    have hstay := hsplit (links, place) (by rw [hlast, travel_stay hes, hstep])
    exact ⟨place, n, find_eq_ok_iff_travel.2 ⟨htext, ⟨links, hstay⟩, hat⟩⟩
  | up =>
    rw [hlast, travel_up hes] at hstep
    have hstay := hsplit (links, place) (by rw [hlast, travel_up hes, hstep])
    exact ⟨place, n, find_eq_ok_iff_travel.2 ⟨htext, ⟨links, hstay⟩, hat⟩⟩
  | into name =>
    rw [hlast] at hstep
    obtain ⟨inner, m, hinner, hsize, hm⟩ := exists_of_travel_into hstep
    have hstay := hsplit _ (hlast ▸ travel_into hinner hsize hm fun _ => rfl)
    exact ⟨_, m, find_eq_ok_iff_travel.2 ⟨htext, ⟨_, hstay⟩, by rw [at?_child hinner, hm]⟩⟩

theorem exists_join_eq (hp : path.bytes ≠ []) (hn : name.head? ≠ some slash) :
    ∃ t, (path.join name).bytes = t ++ slash :: name ∧ (path.bytes = t ∨ path.bytes = t ++ [slash]) := by
  by_cases hl : path.bytes.getLast? = some slash
  · obtain ⟨t, ht⟩ := List.getLast?_eq_some_iff.1 hl
    exact ⟨t, by simp [Path.join, hn, ht], .inr ht⟩
  · exact ⟨path.bytes, by simp [Path.join, hn, hp, hl], .inl rfl⟩

section
variable (h : disk.find true path = .ok (place, .directory es)) (hname : IsFileName name)
include h hname

/-- A name joined to a path that leads to a directory is one more step from there. -/
theorem exists_travel_join : ((path.join name).bytes ≠ [] ∧ 0 ∉ (path.join name).bytes) ∧
    ∃ links, ∀ last, travel disk.top last maxLinks (startOf disk.current (path.join name).bytes)
      (steps (path.join name).bytes) = travel disk.top last links place [.into name] := by
  obtain ⟨⟨hnil, hnul⟩, ⟨links, htravel⟩, -⟩ := find_eq_ok_iff_travel.1 h
  have hhead : name.head? ≠ some slash := fun hs => hname.no_slash (List.mem_of_mem_head? hs)
  obtain ⟨t, hjoin, hpath⟩ := exists_join_eq hnil hhead
  have hsteps : steps (path.join name).bytes = steps t ++ [.into name] := by
    rw [hjoin, steps_append, steps_name hname.no_slash, hname.ofPiece]
  have hstart : startOf disk.current (path.join name).bytes = startOf disk.current path.bytes := by
    rw [startOf, startOf, hjoin]
    rcases hpath with hpath | hpath
    · obtain ⟨c, u, hu⟩ := List.exists_cons_of_ne_nil (hpath ▸ hnil)
      simp [hpath, hu]
    · cases t <;> simp [hpath]
  -- a slash at the end of the path is a step that stays
  have hfront : travel disk.top true maxLinks (startOf disk.current path.bytes) (steps t) =
      .ok (links, place) := by
    rcases hpath with hpath | hpath
    · rwa [← hpath]
    · have hslash : steps path.bytes = steps t ++ [.stay] := by rw [hpath, steps_append, steps_nil]
      rw [hslash, travel_append (fun _ => rfl), bind_eq_ok_iff] at htravel
      obtain ⟨mid, hmid, hstay⟩ := htravel
      obtain ⟨inner, hinner⟩ := exists_entries_of_travel hstay (by simp)
      rw [travel_stay hinner] at hstay
      rwa [← hstay]
  refine ⟨⟨by simp [hjoin], ?_⟩, links, fun last => ?_⟩
  · rw [hjoin]
    rcases hpath with hpath | hpath <;> simp_all [hname.no_nul]
  · rw [hsteps, hstart, travel_append (by simp), hfront]
    rfl

theorem find_join (hn : es.lookup name = some n) (hlink : n.isLink = true → last = false) :
    disk.find last (path.join name) = .ok (place ++ [name], n) := by
  obtain ⟨hbytes, links, htravel⟩ := exists_travel_join h hname
  obtain ⟨-, -, hat⟩ := find_eq_ok_iff_travel.1 h
  have hinto := (htravel last).trans (travel_into hat hname.size hn hlink)
  exact find_eq_ok_iff_travel.2 ⟨hbytes, ⟨links, hinto⟩, by rw [at?_child hat, hn]⟩

theorem find_join_missing (hn : es.lookup name = none) (last : Bool) :
    disk.find last (path.join name) = .error .missing := by
  obtain ⟨⟨hnil, hnul⟩, links, htravel⟩ := exists_travel_join h hname
  obtain ⟨-, -, hat⟩ := find_eq_ok_iff_travel.1 h
  have hresolve : disk.resolve last (path.join name) = .error .missing := by
    rw [resolve, if_neg hnil, if_neg (by simpa using hnul), follow_eq_map_travel, htravel, travel, hat]
    simp [Nat.not_lt.2 hname.size, hn, Except.map]
  rw [find, hresolve]
  rfl

end

end Folio.Disk
