import Folio.Proofs.Language.Detection
import Folio.Proofs.Text.Lowercase

/-!
# Extensions under which languages are stored

An extension is stored in lower case and without blanks at its ends. Dots in front of it are taken off once,
and then the blanks behind them. Where another dot follows, it stays, and the extension is stored in a form
that is not the form it comes to by itself.
-/
namespace Folio

namespace Index
variable {α : Type} {key : Text} {entries : List (Text × α)}

theorem exists_find?_ofList_iff :
    (∃ v, find? key (ofList entries) = some v) ↔ ∃ v, (key, v) ∈ entries := by
  rw [find?_ofList, ← Option.ne_none_iff_exists', Ne, List.lookup_eq_none_iff]
  simp

end Index

namespace Language
open Text
variable {t k : Text}

/-- What is kept of the name of an extension, before it is lower-cased. -/
def stem (t : Text) : Text := trim ((trim t).dropWhile (· = '.'))

theorem extensionKey?_eq_some_iff : extensionKey? t = some k ↔ stem t ≠ [] ∧ lowercase (stem t) = k := by
  simp only [extensionKey?, stem, List.isEmpty_iff, lowercase_eq_nil_iff]
  split <;> simp_all

/-- The name begins with dots, blanks and then a dot once more, behind blanks of its own. -/
def IsDottedTwice (t : Text) : Prop :=
  ∃ front dots gap rest, t = front ++ (dots ++ (gap ++ '.' :: rest)) ∧ (∀ c ∈ front, isBlank c = true) ∧
    dots ≠ [] ∧ (∀ c ∈ dots, c = '.') ∧ gap ≠ [] ∧ ∀ c ∈ gap, isBlank c = true

theorem IsDottedTwice.head?_stem (h : IsDottedTwice t) : (stem t).head? = some '.' := by
  obtain ⟨front, dots, gap, rest, rfl, hfront, hne, hdots, hgapne, hgap⟩ := h
  have hdot : isBlank '.' = false := by decide
  have htrim : trim (front ++ (dots ++ (gap ++ '.' :: rest))) = dots ++ (gap ++ '.' :: trimEnd rest) := by
    obtain ⟨c, dots, rfl⟩ := List.exists_cons_of_ne_nil hne
    have hc : c = '.' := hdots c List.mem_cons_self
    subst hc
    rw [trim, trimStart_append hfront, List.cons_append, trimStart_cons _ hdot, ← List.cons_append,
      ← List.append_assoc, trimEnd_append_cons _ _ hdot, List.append_assoc]
  have hdrop : (dots ++ (gap ++ '.' :: trimEnd rest)).dropWhile (· = '.') = gap ++ '.' :: trimEnd rest := by
    rw [List.dropWhile_append_of_pos (by simpa using hdots)]
    obtain ⟨c, gap, rfl⟩ := List.exists_cons_of_ne_nil hgapne
    have hc : c ≠ '.' := by
      rintro rfl
      simpa [hdot] using hgap '.' List.mem_cons_self
    simp [hc]
  rw [stem, htrim, hdrop, head?_trim, trimStart_append hgap, trimStart_cons _ hdot]
  rfl

theorem isDottedTwice_of_head?_stem (h : (stem t).head? = some '.') : IsDottedTwice t := by
  rw [stem, head?_trim] at h
  obtain ⟨front, hfront, hblank⟩ := exists_blanks_trimStart t
  obtain ⟨back, hback, -⟩ := exists_blanks_trimEnd (trimStart t)
  obtain ⟨gap, hgap, hgapblank⟩ := exists_blanks_trimStart ((trim t).dropWhile (· = '.'))
  obtain ⟨rest, hrest⟩ := List.head?_eq_some_iff.1 h
  have hdots : (trim t).takeWhile (· = '.') ++ (trim t).dropWhile (· = '.') = trim t :=
    List.takeWhile_append_dropWhile
  -- the dot that is left stands behind blanks, as all dots in front of them are gone
  have hgapne : gap ≠ [] := by
    rintro rfl
    have hhead := List.head?_dropWhile_not (· = '.') (trim t)
    rw [hgap, hrest] at hhead
    simp at hhead
  have hdotsne : (trim t).takeWhile (· = '.') ≠ [] := by
    intro hnil
    obtain ⟨c, gap, rfl⟩ := List.exists_cons_of_ne_nil hgapne
    have hhead : (trim t).head? = some c := by
      rw [← hdots, hnil, hgap]
      rfl
    have hc := hgapblank c List.mem_cons_self
    rw [isBlank_head_trim hhead] at hc
    cases hc
  refine ⟨front, (trim t).takeWhile (· = '.'), gap, rest ++ back, ?_, hblank, hdotsne, ?_, hgapne, hgapblank⟩
  · calc t = front ++ (trim t ++ back) := by rw [trim, ← hback, ← hfront]
      _ = front ++ ((trim t).takeWhile (· = '.') ++ (gap ++ '.' :: rest) ++ back) := by
          rw [← hrest, ← hgap, hdots]
      _ = _ := by simp
  · intro c hc
    simpa using List.mem_takeWhile_imp hc

theorem isDottedTwice_iff : IsDottedTwice t ↔ (stem t).head? = some '.' :=
  ⟨IsDottedTwice.head?_stem, isDottedTwice_of_head?_stem⟩

/-! ### Keys -/

section
variable {c : Char} (h : extensionKey? t = some k)
include h

theorem isBlank_head_of_extensionKey? (hc : k.head? = some c) : isBlank c = false := by
  obtain ⟨hne, rfl⟩ := extensionKey?_eq_some_iff.1 h
  have hstem := List.head?_eq_some_head hne
  obtain ⟨x, hx, hlowers⟩ := head?_lowercase hstem
  cases hx.symm.trans hc
  rw [hlowers.isBlank_eq]
  exact isBlank_head_trim hstem

theorem isBlank_getLast_of_extensionKey? (hc : k.getLast? = some c) : isBlank c = false := by
  obtain ⟨hne, rfl⟩ := extensionKey?_eq_some_iff.1 h
  have hstem := List.getLast?_eq_some_getLast hne
  obtain ⟨x, hx, hlowers⟩ := @getLast?_lowerAfter _ _ [] hstem
  cases hx.symm.trans hc
  rw [hlowers.isBlank_eq]
  exact isBlank_getLast_trim hstem

theorem isLower_of_extensionKey? : ∀ c ∈ k, IsLower c := by
  obtain ⟨-, rfl⟩ := extensionKey?_eq_some_iff.1 h
  exact fun _ => isLower_of_mem_lowercase

theorem lowercase_of_extensionKey? : lowercase k = k := by
  obtain ⟨-, rfl⟩ := extensionKey?_eq_some_iff.1 h
  exact lowercase_lowercase _

theorem head?_eq_dot_iff_of_extensionKey? : k.head? = some '.' ↔ IsDottedTwice t := by
  obtain ⟨hne, rfl⟩ := extensionKey?_eq_some_iff.1 h
  obtain ⟨x, hx, hlowers⟩ := head?_lowercase (List.head?_eq_some_head hne)
  rw [isDottedTwice_iff, hx, List.head?_eq_some_head hne, Option.some.injEq, Option.some.injEq]
  exact hlowers.eq_dot_iff

/-- A key is the key of itself unless a dot stands in front of it. -/
theorem extensionKey?_eq_self_iff : extensionKey? k = some k ↔ k.head? ≠ some '.' := by
  have htrim : trim k = k :=
    trim_eq_self (fun _ => isBlank_head_of_extensionKey? h) fun _ => isBlank_getLast_of_extensionKey? h
  have hlower := isLower_of_extensionKey? h
  rw [extensionKey?_eq_some_iff, stem, htrim]
  constructor
  · rintro ⟨-, hself⟩ hdot
    obtain ⟨rest, rfl⟩ := List.head?_eq_some_iff.1 hdot
    have hsub : (trim (('.' :: rest).dropWhile (· = '.'))).Sublist rest := by
      rw [List.dropWhile_cons_of_pos (by simp)]
      exact (trim_sublist _).trans (List.dropWhile_sublist _)
    rw [lowercase, lowerAfter_eq_self fun c hc => hlower c (List.mem_cons_of_mem _ (hsub.subset hc))] at hself
    rw [hself] at hsub
    exact absurd hsub.length_le (by simp)
  · intro hdot
    have hdrop : k.dropWhile (· = '.') = k := by
      cases k with
      | nil => rfl
      | cons c rest => exact List.dropWhile_cons_of_neg (by simpa using hdot)
    rw [hdrop, htrim]
    refine ⟨?_, lowercase_of_extensionKey? h⟩
    rintro rfl
    exact absurd (lowercase_eq_nil_iff.1 (extensionKey?_eq_some_iff.1 h).2) (extensionKey?_eq_some_iff.1 h).1

end

/-! ### Mappings -/

def IsNamed (settings : Index Text Text) (arguments : List Text) (t : Text) : Prop :=
  (∃ language, (t, language) ∈ settings) ∨
    ∃ argument ∈ arguments, ∃ extensions language, argument = extensions ++ '=' :: language ∧
      '=' ∉ extensions ∧ t ∈ extensions.splitOn ','

variable {settings languages : Index Text Text} {arguments : List Text}

theorem exists_mem_settingEntries_iff : (∃ language, (k, language) ∈ settingEntries settings) ↔
    ∃ t language, (t, language) ∈ settings ∧ extensionKey? t = some k := by
  simp only [settingEntries, List.mem_filterMap, Option.map_eq_some_iff, Prod.mk.injEq]
  constructor
  · rintro ⟨-, ⟨t, language⟩, hmem, key, hkey, rfl, rfl⟩
    exact ⟨t, language, hmem, hkey⟩
  · rintro ⟨t, language, hmem, hkey⟩
    exact ⟨language, (t, language), hmem, k, hkey, rfl, rfl⟩

theorem exists_mem_entriesOf_iff : (∃ language, (k, language) ∈ arguments.flatMap entriesOf) ↔
    ∃ t, (∃ argument ∈ arguments, ∃ extensions language, argument = extensions ++ '=' :: language ∧
      '=' ∉ extensions ∧ t ∈ extensions.splitOn ',') ∧ extensionKey? t = some k := by
  simp only [List.mem_flatMap, mem_entriesOf_iff]
  constructor
  · rintro ⟨language, argument, hargument, extensions, he, hequals, t, ht, hkey⟩
    exact ⟨t, ⟨argument, hargument, extensions, language, he, hequals, ht⟩, hkey⟩
  · rintro ⟨t, ⟨argument, hargument, extensions, language, he, hequals, ht⟩, hkey⟩
    exact ⟨language, argument, hargument, extensions, he, hequals, t, ht, hkey⟩

theorem exists_find?_mapping_iff (h : mapping settings arguments = .ok languages) :
    (∃ language, languages.find? k = some language) ↔
      ∃ t, IsNamed settings arguments t ∧ extensionKey? t = some k := by
  have hor : ∀ front back : Option Text, (∃ language, front.or back = some language) ↔
      (∃ language, back = some language) ∨ ∃ language, front = some language := by
    intro front back
    cases front <;> simp
  rw [find?_mapping h, hor, Index.exists_find?_ofList_iff, Index.exists_find?_ofList_iff,
    exists_mem_settingEntries_iff, exists_mem_entriesOf_iff]
  simp only [IsNamed, or_and_right, exists_or, exists_and_right]

theorem dot_notMem_extension {path : Path} {e : Text} (h : path.extension?.map lowercase = some e) : '.' ∉ e := by
  obtain ⟨last, hlast, rfl⟩ := Option.map_eq_some_iff.1 h
  obtain ⟨bytes, hbytes, hdecode⟩ := Option.bind_eq_some_iff.1 hlast
  obtain rfl := Utf8.decode?_eq_some_iff.1 hdecode
  obtain ⟨name, -, hname⟩ := Option.bind_eq_some_iff.1 hbytes
  unfold Path.extensionOf? at hname
  split at hname
  next last' rest hrev =>
    split at hname
    · cases hname
    · cases hname
      have hmem : Utf8.encode last ∈ name.splitOn Path.dot := by
        rw [← List.mem_reverse, hrev]
        exact List.mem_cons_self
      intro hdot
      obtain ⟨c, hc, hlowers⟩ := exists_of_mem_lowerAfter hdot
      rw [hlowers.eq_dot_iff.1 rfl] at hc
      exact notMem_of_mem_splitOn hmem ((Utf8.mem_encode_iff (by decide)).2 hc)
  next => cases hname

/-- The extensions of a mapping are in lower case and have no blank at either end. They are normalised, each
the key of itself, unless a dot stands in front, and one with a dot in front is the extension of no file. So
all of them are normalised just when no name that settings and arguments use has a dot behind the blanks
behind its first dots. -/
theorem mapping_normalised (h : mapping settings arguments = .ok languages) :
    (∀ k language, languages.find? k = some language →
      (∀ c ∈ k.head?, isBlank c = false) ∧ (∀ c ∈ k.getLast?, isBlank c = false) ∧ lowercase k = k ∧
        (extensionKey? k = some k ↔ k.head? ≠ some '.') ∧
        (k.head? = some '.' → ∀ path : Path, path.extension?.map lowercase ≠ some k)) ∧
      ((∀ k language, languages.find? k = some language → extensionKey? k = some k) ↔
        ∀ t, IsNamed settings arguments t → ¬ IsDottedTwice t) := by
  have hkey : ∀ k language, languages.find? k = some language →
      ∃ t, IsNamed settings arguments t ∧ extensionKey? t = some k :=
    fun k language hk => (exists_find?_mapping_iff h).1 ⟨language, hk⟩
  refine ⟨?_, ?_, ?_⟩
  · intro k language hk
    obtain ⟨t, -, ht⟩ := hkey k language hk
    refine ⟨fun _ => isBlank_head_of_extensionKey? ht, fun _ => isBlank_getLast_of_extensionKey? ht,
      lowercase_of_extensionKey? ht, extensionKey?_eq_self_iff ht, ?_⟩
    intro hdot path hpath
    exact dot_notMem_extension hpath (List.mem_of_head? hdot)
  · intro hall t hnamed htwice
    have hne : stem t ≠ [] := by
      intro hnil
      have hdot := htwice.head?_stem
      rw [hnil] at hdot
      cases hdot
    have ht : extensionKey? t = some (lowercase (stem t)) := extensionKey?_eq_some_iff.2 ⟨hne, rfl⟩
    obtain ⟨language, hk⟩ := (exists_find?_mapping_iff h).2 ⟨t, hnamed, ht⟩
    exact (extensionKey?_eq_self_iff ht).1 (hall _ _ hk) ((head?_eq_dot_iff_of_extensionKey? ht).2 htwice)
  · intro hnone k language hk
    obtain ⟨t, hnamed, ht⟩ := hkey k language hk
    refine (extensionKey?_eq_self_iff ht).2 fun hdot => hnone t hnamed ?_
    exact (head?_eq_dot_iff_of_extensionKey? ht).1 hdot

theorem mapping_normalised_mixed :
    let settings : Index Text Text := [(" ..RS\t".toList, "rust".toList)]
    let arguments := ["tpl, .HTML=twig".toList, "..\u00A0.py =python".toList]
    ∃ languages, mapping settings arguments = .ok languages ∧
      (∀ k language, languages.find? k = some language →
        (∀ c ∈ k.head?, isBlank c = false) ∧ (∀ c ∈ k.getLast?, isBlank c = false) ∧ lowercase k = k ∧
          (extensionKey? k = some k ↔ k.head? ≠ some '.') ∧
          (k.head? = some '.' → ∀ path : Path, path.extension?.map lowercase ≠ some k)) ∧
      ¬ ∀ k language, languages.find? k = some language → extensionKey? k = some k := by
  intro settings arguments
  have hwell : ∀ t ∈ arguments, '=' ∈ t := by decide
  obtain ⟨languages, hl⟩ := exists_mapping_eq settings hwell
  obtain ⟨hkeys, hall⟩ := mapping_normalised hl
  refine ⟨languages, hl, hkeys, ?_⟩
  rw [hall]
  intro hnone
  have hblank : isBlank '\u00A0' = true := by decide
  have hnamed : IsNamed settings arguments "..\u00A0.py ".toList :=
    .inr ⟨"..\u00A0.py =python".toList, by simp [arguments], "..\u00A0.py ".toList, "python".toList, rfl,
      by decide, by decide⟩
  exact hnone _ hnamed ⟨[], "..".toList, "\u00A0".toList, "py ".toList, rfl, by simp, by simp, by simp,
    by simp, by simpa using hblank⟩

/-- The dot behind the blank stays, and the form with it is not normal. -/
theorem mapping_not_normalised :
    let languages : Index Text Text := [(".rs".toList, "rust".toList)]
    mapping [] [". .rs=rust".toList] = .ok languages ∧ languages.find? ".rs".toList = some "rust".toList ∧
      ".rs".toList.head? = some '.' ∧ extensionKey? ".rs".toList = some "rs".toList := by
  refine ⟨by decide +kernel, by decide, by decide, by decide⟩

end Language
end Folio
