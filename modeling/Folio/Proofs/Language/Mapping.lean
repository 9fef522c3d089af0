import Mathlib.Data.List.Basic
import Folio.Language.Mapping
import Folio.Proofs.Text.Pieces

/-!
# Languages of extensions

Arguments make a mapping unless one of them has no equals sign. Entries of the settings count like
arguments that come before all others.
-/
namespace Folio.Language
variable {arguments : List Text} {argument : Text}

theorem argumentEntries_eq_error (h : '=' ∉ argument) :
    argumentEntries argument = .error (.mapping argument) := by
  rw [argumentEntries, Text.cutAt?_eq_none_iff.2 h]

theorem exists_argumentEntries_eq (h : '=' ∈ argument) : ∃ entries, argumentEntries argument = .ok entries := by
  unfold argumentEntries
  split
  next hcut => exact absurd h (Text.cutAt?_eq_none_iff.1 hcut)
  next => exact ⟨_, rfl⟩

theorem mapM_argumentEntries_eq_error (h : arguments.find? (fun t => '=' ∉ t) = some argument) :
    arguments.mapM argumentEntries = .error (.mapping argument) := by
  induction arguments with
  | nil => cases h
  | cons t rest ih =>
    rw [List.mapM_cons]
    by_cases ht : '=' ∈ t
    · obtain ⟨entries, he⟩ := exists_argumentEntries_eq ht
      rw [List.find?_cons_of_neg (by simpa using ht)] at h
      rw [he, ih h]
      rfl
    · rw [List.find?_cons_of_pos (by simpa using ht)] at h
      cases h
      rw [argumentEntries_eq_error ht]
      rfl

theorem exists_mapM_argumentEntries_eq (h : ∀ t ∈ arguments, '=' ∈ t) :
    ∃ entries, arguments.mapM argumentEntries = .ok entries := by
  induction arguments with
  | nil => exact ⟨[], rfl⟩
  | cons t rest ih =>
    obtain ⟨entries, he⟩ := exists_argumentEntries_eq (h t (by simp))
    obtain ⟨others, ho⟩ := ih fun u hu => h u (by simp [hu])
    refine ⟨entries :: others, ?_⟩
    rw [List.mapM_cons, he, ho]
    rfl

theorem mapping_eq_error (settings : Index Text Text)
    (h : arguments.find? (fun t => '=' ∉ t) = some argument) :
    mapping settings arguments = .error (.mapping argument) := by
  rw [mapping, mapM_argumentEntries_eq_error h]
  rfl

theorem exists_mapping_eq (settings : Index Text Text) (h : ∀ t ∈ arguments, '=' ∈ t) :
    ∃ languages, mapping settings arguments = .ok languages := by
  obtain ⟨entries, he⟩ := exists_mapM_argumentEntries_eq h
  exact ⟨_, by rw [mapping, he]; rfl⟩

/-- The argument that stands for an entry of the settings. -/
def entryArgument (entry : Text × Text) : Text := entry.1 ++ '=' :: entry.2

theorem argumentEntries_entryArgument {entry : Text × Text} (hcomma : ',' ∉ entry.1)
    (hequals : '=' ∉ entry.1) : argumentEntries (entryArgument entry) = .ok (settingEntries [entry]) := by
  obtain ⟨t, language⟩ := entry
  rw [argumentEntries, entryArgument, Text.cutAt?_append hequals]
  simp only [List.splitOn_eq_singleton hcomma, settingEntries]
  cases h : extensionKey? t <;> simp [h]

theorem flatMap_settingEntries (languages : Index Text Text) :
    (languages.flatMap fun entry => settingEntries [entry]) = settingEntries languages := by
  induction languages with
  | nil => rfl
  | cons entry languages ih =>
    rw [List.flatMap_cons, ih, settingEntries, settingEntries, settingEntries, ← List.filterMap_append,
      List.singleton_append]

theorem mapM_entryArgument {languages : Index Text Text}
    (hk : ∀ entry ∈ languages, ',' ∉ entry.1 ∧ '=' ∉ entry.1) :
    (languages.map entryArgument).mapM argumentEntries =
      .ok (languages.map fun entry => settingEntries [entry]) := by
  induction languages with
  | nil => rfl
  | cons entry languages ih =>
    obtain ⟨hcomma, hequals⟩ := hk entry (by simp)
    rw [List.map_cons, List.mapM_cons, argumentEntries_entryArgument hcomma hequals,
      ih fun e he => hk e (by simp [he])]
    rfl

/-- The entries of the settings count like arguments that come before all others. -/
theorem mapping_entryArgument {languages : Index Text Text}
    (hk : ∀ entry ∈ languages, ',' ∉ entry.1 ∧ '=' ∉ entry.1) (arguments : List Text) :
    mapping languages arguments = mapping [] (languages.map entryArgument ++ arguments) := by
  unfold mapping
  rw [List.mapM_append, mapM_entryArgument hk]
  cases arguments.mapM argumentEntries with
  | error failure => rfl
  | ok entries =>
    have hentries : settingEntries languages ++ entries.flatten =
        settingEntries [] ++ ((languages.map fun entry => settingEntries [entry]) ++ entries).flatten := by
      rw [List.flatten_append, ← List.flatMap_def, flatMap_settingEntries]
      rfl
    simp only [bind, Except.bind, hentries]
    rfl

end Folio.Language
