import Folio.CommandLine.Execution
import Folio.Proofs.Disk.Tree
import Folio.Proofs.Language.Mapping

/-!
# Settings as arguments

Settings say nothing that arguments could not say. A command with settings comes to what the command without
settings comes to whose arguments begin with the rules of the settings and with a mapping for each of their
extensions, and that names their exclusion files where it names none itself.
-/
namespace Folio

namespace Settings
variable {d : Yaml.Document} {f g : Fields}

theorem ascending_of_index? {node : Yaml.Node Nat} {index : Index Text Text} (h : index? d node = some index) :
    index.Ascending := by
  simp only [index?, Option.bind_eq_bind, Option.bind_eq_some_iff, Option.some.injEq] at h
  obtain ⟨_, _, entries, _, rfl⟩ := h
  exact Index.ascending_ofList entries

/-- The languages that were read, if any, stand in the order of their extensions. -/
def Fields.Ordered (f : Fields) : Prop := ∀ languages ∈ f.languages, languages.Ascending

theorem Fields.Ordered.add? (h : f.Ordered) {pair : Yaml.Node Nat × Yaml.Node Nat}
    (hg : f.add? d pair = some g) : g.Ordered := by
  obtain ⟨name, -, hg⟩ := Option.bind_eq_some_iff.1 hg
  split at hg
  · split at hg
    · cases hg
    · obtain ⟨rules, -, hg⟩ := Option.bind_eq_some_iff.1 hg
      cases hg
      exact h
  · split at hg
    · split at hg
      · cases hg
      · obtain ⟨languages, hl, hg⟩ := Option.bind_eq_some_iff.1 hg
        cases hg
        intro index hi
        cases hi
        exact ascending_of_index? hl
    · split at hg
      · split at hg
        · cases hg
        · obtain ⟨names, -, hg⟩ := Option.bind_eq_some_iff.1 hg
          cases hg
          exact h
      · cases hg
        exact h

theorem Fields.Ordered.foldlM_add? (h : f.Ordered) (pairs : List (Yaml.Node Nat × Yaml.Node Nat))
    (hg : pairs.foldlM (Fields.add? d) f = some g) : g.Ordered := by
  induction pairs generalizing f with
  | nil =>
    cases hg
    exact h
  | cons pair pairs ih =>
    rw [List.foldlM_cons] at hg
    obtain ⟨next, hnext, hg⟩ := Option.bind_eq_some_iff.1 hg
    exact ih (h.add? hnext) hg

theorem ascending_of_ofText? {t : Text} {settings : Settings} (h : ofText? t = some settings) :
    settings.languages.Ascending := by
  simp only [ofText?, Option.bind_eq_bind, Option.bind_eq_some_iff, Option.some.injEq] at h
  obtain ⟨d, -, pairs, -, fields, hfold, rfl⟩ := h
  have hnone : Fields.Ordered ⟨none, none, none⟩ := fun languages hl => by cases hl
  have hordered := hnone.foldlM_add? pairs hfold
  cases hl : fields.languages with
  | none => simp [Fields.settings, hl, Index.Ascending]
  | some languages => simpa [Fields.settings, hl] using hordered languages hl

theorem ascending_empty : empty.languages.Ascending := List.Pairwise.nil

/-- Settings that were loaded name their extensions in order. -/
theorem ascending_of_load {disk : Disk} {path : Path} {settings : Settings}
    (h : load disk path = .ok settings) : settings.languages.Ascending := by
  unfold load at h
  split at h
  · cases h
    exact ascending_empty
  · split at h
    · cases h
    · split at h
      · cases h
        exact ascending_empty
      · split at h
        next hs =>
          cases h
          exact ascending_of_ofText? hs
        next => cases h

end Settings

namespace CommandLine.Arguments
open Folio.Language

/-- The arguments of a command without settings that say what the settings say. -/
def withSettings (a : Arguments) (settings : Settings) : Arguments :=
  { a with
    noSettings := true
    rules := settings.extraRules ++ a.rules
    mappings := settings.languages.map entryArgument ++ a.mappings
    exclusionFiles := if a.exclusionFiles.isEmpty then settings.exclusionFiles else a.exclusionFiles }

variable {a : Arguments} {settings : Settings}

theorem options_withSettings (workingDirectory : Path) :
    (a.withSettings settings).options .empty workingDirectory = a.options settings workingDirectory := by
  have hnames : exclusionNames (if (a.withSettings settings).exclusionFiles.isEmpty then []
      else (a.withSettings settings).exclusionFiles) =
        exclusionNames (if a.exclusionFiles.isEmpty then settings.exclusionFiles else a.exclusionFiles) := by
    unfold withSettings
    cases a.exclusionFiles with
    | nil => cases settings.exclusionFiles <;> rfl
    | cons name names => rfl
  exact congrArg (fun names => { a.options settings workingDirectory with exclusionFiles := names }) hnames

theorem executeWith_withSettings (hk : ∀ entry ∈ settings.languages, ',' ∉ entry.1 ∧ '=' ∉ entry.1)
    (disk : Disk) :
    (a.withSettings settings).executeWith .empty disk = a.executeWith settings disk := by
  have hmapping : mapping Settings.empty.languages (a.withSettings settings).mappings =
      mapping settings.languages a.mappings := (mapping_entryArgument hk a.mappings).symm
  rw [executeWith, executeWith, hmapping, options_withSettings]

theorem ascending_settings {home : Option Path} {disk : Disk} :
    (a.settings home disk).1.languages.Ascending := by
  unfold settings
  cases h : a.loaded home disk with
  | error failure => exact Settings.ascending_empty
  | ok loaded =>
    unfold Arguments.loaded at h
    split at h
    · cases h
      exact Settings.ascending_empty
    · split at h
      · exact Settings.ascending_of_load h
      · exact Settings.ascending_of_load h
      · cases h

/-- What a command comes to depends on its settings only through the run that they make it do. -/
theorem execute_congr {b : Arguments} {home : Option Path} {disk : Disk}
    (h : a.executeWith (a.settings home disk).1 disk = b.executeWith (b.settings home disk).1 disk) :
    (a.execute home disk).output = (b.execute home disk).output ∧
      (a.execute home disk).failure = (b.execute home disk).failure := by
  unfold execute
  generalize a.settings home disk = s at h
  generalize b.settings home disk = t at h
  simp only [h]
  cases b.executeWith t.1 disk with
  | error failure => exact ⟨rfl, rfl⟩
  | ok document => exact ⟨rfl, rfl⟩

/-- Settings are only the beginning of a command line. A command that loads settings, whose extensions hold
neither commas nor equals signs, comes to what the command without settings comes to whose arguments begin
with the rules of the settings and with their extensions in order. So does a command with settings that were
never in a file. -/
theorem execute_withSettings (hk : ∀ entry ∈ settings.languages, ',' ∉ entry.1 ∧ '=' ∉ entry.1)
    (disk : Disk) :
    a.executeWith settings disk = (a.withSettings settings).executeWith .empty disk ∧
      ∀ home, (a.settings home disk).1 = settings →
        settings.languages.Ascending ∧
        ((a.withSettings settings).settings home disk).1 = .empty ∧
        (a.execute home disk).output = ((a.withSettings settings).execute home disk).output ∧
        (a.execute home disk).failure = ((a.withSettings settings).execute home disk).failure := by
  refine ⟨(executeWith_withSettings hk disk).symm, ?_⟩
  rintro home rfl
  have hempty : (a.withSettings (a.settings home disk).1).settings home disk = (.empty, []) := rfl
  refine ⟨ascending_settings, by rw [hempty], execute_congr ?_⟩
  rw [hempty, executeWith_withSettings hk disk]

/-- The rule `*.o` and a language for the extension `.Tpl`, as a user writes them. -/
def settingsText : Text := "ignore: ['*.o']\nfiletypes: {.Tpl: twig}\n".toList

def configuredDisk : Disk :=
  ⟨.directory [(Utf8.ofString "c", .file (Utf8.encode settingsText) 0), (Utf8.ofString "x", .file [] 0)], [],
    by decide⟩

theorem load_configuredDisk : Settings.load configuredDisk (.ofText "/c".toList) =
    .ok ⟨["*.o".toList], [(".Tpl".toList, "twig".toList)], []⟩ := by
  have hpath : (Path.ofText "/c".toList) = Disk.pathOf [Utf8.ofString "c"] := by decide
  have hfind : configuredDisk.find true (Disk.pathOf [Utf8.ofString "c"]) =
      .ok ([Utf8.ofString "c"], .file (Utf8.encode settingsText) 0) := Disk.find_pathOf rfl (by simp) (by simp)
  have hdecode : Utf8.decode? (Utf8.encode settingsText) = some settingsText := by decide +kernel
  have hread : configuredDisk.readText (Disk.pathOf [Utf8.ofString "c"]) = .ok settingsText := by
    simp [Disk.readText, Disk.read, hfind, hdecode, bind, Except.bind]
  have hexists : configuredDisk.exists? (Disk.pathOf [Utf8.ofString "c"]) = true := by
    rw [Disk.exists?, hfind]
    rfl
  have hblank : Text.trim settingsText ≠ [] := by decide +kernel
  have hparsed : Settings.ofText? settingsText =
      some ⟨["*.o".toList], [(".Tpl".toList, "twig".toList)], []⟩ := by decide +kernel
  simp only [hpath, Settings.load, hexists, hread, hblank, hparsed, Bool.not_true, Bool.false_eq_true,
    if_false]

theorem execute_withSettings_configuredDisk :
    let a : Arguments := { Arguments.empty with
      rules := ["!y.o".toList], mappings := ["tpl=html".toList], settingsFile := some (.ofText "/c".toList) }
    let b : Arguments := { a with
      noSettings := true, rules := ["*.o".toList, "!y.o".toList]
      mappings := [".Tpl=twig".toList, "tpl=html".toList] }
    let settings : Settings := ⟨["*.o".toList], [(".Tpl".toList, "twig".toList)], []⟩
    (∀ entry ∈ settings.languages, ',' ∉ entry.1 ∧ '=' ∉ entry.1) ∧
      a.executeWith settings configuredDisk = b.executeWith .empty configuredDisk ∧
      (a.settings none configuredDisk).1 = settings ∧
      (a.execute none configuredDisk).output = (b.execute none configuredDisk).output ∧
      (a.execute none configuredDisk).failure = (b.execute none configuredDisk).failure := by
  intro a b settings
  have hk : ∀ entry ∈ settings.languages, ',' ∉ entry.1 ∧ '=' ∉ entry.1 := by decide
  have hb : a.withSettings settings = b := by decide
  have hload : a.loaded none configuredDisk = .ok settings := load_configuredDisk
  have hloaded : (a.settings none configuredDisk).1 = settings := by rw [Arguments.settings, hload]
  obtain ⟨hrun, hexecute⟩ := execute_withSettings (a := a) hk configuredDisk
  obtain ⟨-, -, houtput, hfailure⟩ := hexecute none hloaded
  rw [hb] at hrun houtput hfailure
  exact ⟨hk, hrun, hloaded, houtput, hfailure⟩

end CommandLine.Arguments
end Folio
