import Folio.Language.Detector
import Folio.Proofs.Disk.Loss
import Folio.Proofs.Index
import Folio.Proofs.Language.Mapping

/-!
# The last word on an extension

The last argument that names an extension gives its language, and where no argument names it, the last entry
of the settings that does. What they say is final. The tables and the interpreter line of a file decide only
where nothing is said about its extension.
-/
namespace Folio

namespace Language
variable {argument e language t : Text} {arguments : List Text} {settings languages : Index Text Text}
  {entries : List (List (Text × Text))} {failure : Failure}

/-- An argument gives a language to an extension that it names in front of its first equals sign. -/
def Assigns (argument e language : Text) : Prop :=
  ∃ extensions, argument = extensions ++ '=' :: language ∧ '=' ∉ extensions ∧
    ∃ t ∈ extensions.splitOn ',', extensionKey? t = some e

def entriesOf (argument : Text) : List (Text × Text) := (argumentEntries argument).toOption.getD []

theorem mem_entriesOf_iff : (e, language) ∈ entriesOf argument ↔ Assigns argument e language := by
  unfold entriesOf argumentEntries Assigns
  cases hcut : Text.cutAt? '=' argument with
  | none =>
    rw [Text.cutAt?_eq_none_iff] at hcut
    constructor
    · intro h
      cases h
    · rintro ⟨extensions, rfl, -, -⟩
      simp at hcut
  | some cut =>
    obtain ⟨front, back⟩ := cut
    have hmem : (e, language) ∈ ((front.splitOn ',').filterMap extensionKey?).map (fun key => (key, back)) ↔
        back = language ∧ ∃ t ∈ front.splitOn ',', extensionKey? t = some e := by
      simp [and_comm]
    refine Iff.trans hmem ?_
    constructor
    · rintro ⟨rfl, h⟩
      exact ⟨front, (Text.cutAt?_eq_some_iff.1 hcut).1, (Text.cutAt?_eq_some_iff.1 hcut).2, h⟩
    · rintro ⟨extensions, hargument, hequals, h⟩
      rw [Text.cutAt?_eq_some_iff.2 ⟨hargument, hequals⟩] at hcut
      cases hcut
      exact ⟨rfl, h⟩

theorem Assigns.eq {other : Text} (h : Assigns argument e language) (ho : Assigns argument e other) :
    other = language := by
  obtain ⟨front, hfront, hequals, -⟩ := h
  obtain ⟨front', hfront', hequals', -⟩ := ho
  have hcut := Text.cutAt?_eq_some_iff.2 ⟨hfront, hequals⟩
  rw [Text.cutAt?_eq_some_iff.2 ⟨hfront', hequals'⟩] at hcut
  cases hcut
  rfl

theorem flatten_eq_flatMap_entriesOf (h : arguments.mapM argumentEntries = .ok entries) :
    entries.flatten = arguments.flatMap entriesOf := by
  induction arguments generalizing entries with
  | nil =>
    cases h
    rfl
  | cons t rest ih =>
    rw [List.mapM_cons] at h
    cases ht : argumentEntries t with
    | error failure =>
      rw [ht] at h
      cases h
    | ok first =>
      rw [ht] at h
      cases hrest : rest.mapM argumentEntries with
      | error failure =>
        rw [hrest] at h
        cases h
      | ok others =>
        rw [hrest] at h
        cases h
        rw [List.flatten_cons, ih hrest, List.flatMap_cons, entriesOf, ht]
        rfl

theorem find?_arguments_eq_none (ha : ∀ t ∈ arguments, ∀ other, ¬ Assigns t e other) :
    Index.find? e (.ofList (arguments.flatMap entriesOf)) = none := by
  apply Index.find?_ofList_eq_none
  rintro ⟨key, other⟩ he rfl
  obtain ⟨t, ht, he⟩ := List.mem_flatMap.1 he
  exact ha t ht other (mem_entriesOf_iff.1 he)

theorem find?_settings_eq_none (hs : ∀ entry ∈ settings, extensionKey? entry.1 ≠ some e) :
    Index.find? e (.ofList (settingEntries settings)) = none := by
  apply Index.find?_ofList_eq_none
  rintro ⟨key, other⟩ he rfl
  obtain ⟨entry, hentry, he⟩ := List.mem_filterMap.1 he
  obtain ⟨key, hkey, he⟩ := Option.map_eq_some_iff.1 he
  cases he
  exact hs entry hentry hkey

theorem find?_mapping (h : mapping settings arguments = .ok languages) (e : Text) :
    languages.find? e = (Index.find? e (.ofList (arguments.flatMap entriesOf))).or
      (Index.find? e (.ofList (settingEntries settings))) := by
  unfold mapping at h
  cases hentries : arguments.mapM argumentEntries with
  | error failure =>
    rw [hentries] at h
    cases h
  | ok entries =>
    rw [hentries] at h
    cases h
    rw [← flatten_eq_flatMap_entriesOf hentries]
    exact Index.find?_ofList_append

/-- The last argument that names an extension gives its language. -/
theorem find?_mapping_of_argument {front rest : List Text}
    (h : mapping settings (front ++ argument :: rest) = .ok languages) (ha : Assigns argument e language)
    (hrest : ∀ t ∈ rest, ∀ other, ¬ Assigns t e other) : languages.find? e = some language := by
  have hsome : Index.find? e (.ofList (entriesOf argument)) = some language :=
    Index.find?_ofList_eq_some (mem_entriesOf_iff.2 ha) fun other ho => ha.eq (mem_entriesOf_iff.1 ho)
  rw [find?_mapping h, List.flatMap_append, List.flatMap_cons, Index.find?_ofList_append,
    Index.find?_ofList_append, find?_arguments_eq_none hrest, hsome]
  rfl

section
variable (h : mapping settings arguments = .ok languages)
  (ha : ∀ t ∈ arguments, ∀ other, ¬ Assigns t e other)
include h ha

theorem find?_mapping_of_not_assigns :
    languages.find? e = Index.find? e (.ofList (settingEntries settings)) := by
  rw [find?_mapping h, find?_arguments_eq_none ha, Option.none_or]

/-- Where no argument names an extension, the entry with the greatest key that comes to it gives its
language. -/
theorem find?_mapping_of_setting (hs : settings.Ascending) (hmem : (t, language) ∈ settings)
    (ht : extensionKey? t = some e)
    (hlast : ∀ entry ∈ settings, extensionKey? entry.1 = some e → ¬ t < entry.1) :
    languages.find? e = some language := by
  obtain ⟨front, rest, rfl⟩ := List.append_of_mem hmem
  have hrest : ∀ entry ∈ rest, extensionKey? entry.1 ≠ some e := by
    intro entry hentry hkey
    have hlt : t < entry.1 := (List.pairwise_cons.1 (List.pairwise_append.1 hs).2.1).1 entry hentry
    exact hlast entry (by simp [hentry]) hkey hlt
  have hentries : settingEntries (front ++ (t, language) :: rest) =
      settingEntries front ++ ([(e, language)] ++ settingEntries rest) := by
    simp [settingEntries, ht]
  have hsome : Index.find? e (.ofList [(e, language)]) = some language :=
    Index.find?_ofList_eq_some (by simp) (by simp)
  rw [find?_mapping_of_not_assigns h ha, hentries, Index.find?_ofList_append, Index.find?_ofList_append,
    find?_settings_eq_none hrest, hsome]
  rfl

theorem find?_mapping_eq_none (hs : ∀ entry ∈ settings, extensionKey? entry.1 ≠ some e) :
    languages.find? e = none := by
  rw [find?_mapping_of_not_assigns h ha, find?_settings_eq_none hs]

end

theorem mapping_eq_error_iff : mapping settings arguments = .error failure ↔
    ∃ front argument rest, arguments = front ++ argument :: rest ∧ (∀ t ∈ front, '=' ∈ t) ∧
      '=' ∉ argument ∧ failure = .mapping argument := by
  cases hfind : arguments.find? (fun t => '=' ∉ t) with
  | none =>
    have hall : ∀ t ∈ arguments, '=' ∈ t := by simpa using hfind
    obtain ⟨languages, hl⟩ := exists_mapping_eq settings hall
    rw [hl]
    constructor
    · intro h
      cases h
    · rintro ⟨front, argument, rest, rfl, -, hnot, -⟩
      exact absurd (hall argument (by simp)) hnot
  | some first =>
    rw [mapping_eq_error settings hfind]
    obtain ⟨hnot, front, rest, harguments, hfront⟩ := List.find?_eq_some_iff_append.1 hfind
    constructor
    · intro h
      cases h
      exact ⟨front, first, rest, harguments, by simpa using hfront, by simpa using hnot, rfl⟩
    · rintro ⟨front', argument, rest', rfl, hfront', hargument, rfl⟩
      rw [List.find?_append, List.find?_eq_none.2 (by simpa using hfront'), Option.none_or,
        List.find?_cons_of_pos (by simpa using hargument)] at hfind
      cases hfind
      rfl

/-! ### Files -/

theorem ne_unknown_of_lookUp {table : List (String × String)} {key tag : Text}
    (ht : ∀ entry ∈ table, entry.2.toList ≠ unknown) (h : lookUp table key = some tag) : tag ≠ unknown := by
  obtain ⟨entry, hentry, rfl⟩ := Option.map_eq_some_iff.1 h
  exact ht entry (List.mem_of_find?_eq_some hentry)

theorem known?_of_ne (h : t ≠ unknown) : known? t = some t := if_neg h

/-- The language that the interpreter line of the file at a path gives away. -/
def sniffed? (disk : Disk) (path : Path) : Option Text :=
  match disk.read path with
  | .ok (.ok content) => sniff? content
  | _ => none

namespace Detector
variable {d : Detector} {disk : Disk} {path : Path}

theorem detect_of_find? (he : path.extension?.map Text.lowercase = some e)
    (h : d.mapping.find? e = some language) : d.detect disk path = known? language := by
  simp [detect, byName?, he, h]

theorem detect_of_find?_none
    (h : ∀ e, path.extension?.map Text.lowercase = some e → d.mapping.find? e = none) :
    d.detect disk path = (path.nameText?.bind (lookUp fileNames) <|>
      (path.extension?.map Text.lowercase).bind (lookUp extensions) <|>
      if d.reads then sniffed? disk path else none) := by
  have hnames : ∀ entry ∈ fileNames, entry.2.toList ≠ unknown := by decide
  have hextensions : ∀ entry ∈ extensions, entry.2.toList ≠ unknown := by decide
  have hnone : (path.extension?.map Text.lowercase).bind (d.mapping.find? ·) = none := by
    rw [Option.bind_eq_none_iff]
    exact h
  rw [detect, byName?, hnone]
  cases hname : path.nameText?.bind (lookUp fileNames) with
  | some tag =>
    obtain ⟨name, -, htag⟩ := Option.bind_eq_some_iff.1 hname
    exact known?_of_ne (ne_unknown_of_lookUp hnames htag)
  | none =>
    cases hextension : (path.extension?.map Text.lowercase).bind (lookUp extensions) with
    | some tag =>
      obtain ⟨e, -, htag⟩ := Option.bind_eq_some_iff.1 hextension
      exact known?_of_ne (ne_unknown_of_lookUp hextensions htag)
    | none => rfl

end Detector

/-- Arguments are refused for the first of them that has no equals sign. Otherwise the last argument that
names the extension of a file gives its language, and where none does the last entry of the settings, and
to be unknown by them is final. Only where neither says anything about the extension, the name of the file,
its extension and its first line decide in this order. -/
theorem detect_mapping (hs : settings.Ascending) (arguments : List Text) :
    (∀ failure, mapping settings arguments = .error failure ↔
      ∃ front argument rest, arguments = front ++ argument :: rest ∧ (∀ t ∈ front, '=' ∈ t) ∧
        '=' ∉ argument ∧ failure = .mapping argument) ∧
      ∀ languages reads disk path, mapping settings arguments = .ok languages →
        let extension := path.extension?.map Text.lowercase
        let detected := Detector.detect ⟨languages, reads⟩ disk path
        (∀ e front argument rest language, extension = some e → arguments = front ++ argument :: rest →
          Assigns argument e language → (∀ t ∈ rest, ∀ other, ¬ Assigns t e other) →
          detected = known? language) ∧
        (∀ e t language, extension = some e → (∀ t ∈ arguments, ∀ other, ¬ Assigns t e other) →
          (t, language) ∈ settings → extensionKey? t = some e →
          (∀ entry ∈ settings, extensionKey? entry.1 = some e → ¬ t < entry.1) →
          detected = known? language) ∧
        ((∀ e, extension = some e → (∀ t ∈ arguments, ∀ other, ¬ Assigns t e other) ∧
            ∀ entry ∈ settings, extensionKey? entry.1 ≠ some e) →
          detected = (path.nameText?.bind (lookUp fileNames) <|> extension.bind (lookUp extensions) <|>
            if reads then sniffed? disk path else none)) := by
  refine ⟨fun _ => mapping_eq_error_iff, ?_⟩
  intro languages reads disk path h extension detected
  refine ⟨?_, ?_, ?_⟩
  · rintro e front argument rest language he rfl ha hrest
    exact Detector.detect_of_find? he (find?_mapping_of_argument h ha hrest)
  · intro e t language he ha hmem ht hlast
    exact Detector.detect_of_find? he (find?_mapping_of_setting h ha hs hmem ht hlast)
  · intro hnone
    exact Detector.detect_of_find?_none fun e he => find?_mapping_eq_none h (hnone e he).1 (hnone e he).2

theorem detect_mapping_twice :
    let settings : Index Text Text := [(".rs".toList, "text".toList), ("RS ".toList, unknown)]
    let arguments := ["py=one".toList, "tpl, .PY=two=three".toList]
    settings.Ascending ∧ ∃ languages, mapping settings arguments = .ok languages ∧
      ∀ disk, Detector.detect ⟨languages, true⟩ disk (.ofText "a.Py".toList) = some "two=three".toList ∧
        Detector.detect ⟨languages, true⟩ disk (.ofText "a.rs".toList) = none ∧
        Detector.detect ⟨languages, true⟩ disk (.ofText "Makefile".toList) = some "makefile".toList := by
  intro settings arguments
  have hs : settings.Ascending := by decide
  have hwell : ∀ t ∈ arguments, '=' ∈ t := by decide
  obtain ⟨languages, hl⟩ := exists_mapping_eq settings hwell
  have hdetect (disk : Disk) (path : Path) := (detect_mapping hs arguments).2 languages true disk path hl
  have hlast : Assigns "tpl, .PY=two=three".toList "py".toList "two=three".toList :=
    ⟨"tpl, .PY".toList, by decide, by decide, " .PY".toList, by decide, by decide⟩
  have hentries : arguments.map entriesOf =
      [[("py".toList, "one".toList)],
        [("tpl".toList, "two=three".toList), ("py".toList, "two=three".toList)]] := by decide
  have hnone : ∀ t ∈ arguments, ∀ other, ¬ Assigns t "rs".toList other := by
    intro t ht other ha
    have hmem := mem_entriesOf_iff.2 ha
    have hes : entriesOf t ∈ arguments.map entriesOf := List.mem_map_of_mem ht
    rw [hentries] at hes
    rcases List.mem_cons.1 hes with he | he
    · simp [he] at hmem
    · simp [List.mem_singleton.1 he] at hmem
  refine ⟨hs, languages, hl, fun disk => ⟨?_, ?_, ?_⟩⟩
  · exact (hdetect disk (.ofText "a.Py".toList)).1 _ ["py=one".toList] _ [] _ (by decide +kernel) rfl hlast (by simp)
  · exact (hdetect disk (.ofText "a.rs".toList)).2.1 _ "RS ".toList unknown (by decide +kernel) hnone (by decide)
      (by decide) (by decide)
  · have hextension : (Path.ofText "Makefile".toList).extension?.map Text.lowercase = none := by decide +kernel
    have hname : (Path.ofText "Makefile".toList).nameText?.bind (lookUp fileNames) =
        some "makefile".toList := by decide +kernel
    have hnone : ∀ e, (Path.ofText "Makefile".toList).extension?.map Text.lowercase ≠ some e := by
      intro e he
      rw [hextension] at he
      cases he
    rw [(hdetect disk (.ofText "Makefile".toList)).2.2 fun e he => absurd he (hnone e), hname]
    rfl

end Language
end Folio
