import Folio.Language.Shebang
import Folio.Proofs.Text.Pieces
import Folio.Proofs.Text.Utf8
import Folio.Proofs.Text.Words

/-!
# Interpreter lines

The first line of a script names an interpreter by its words: a program by its path, or `env` with options and
then the program. The last part of the path is looked up with and without a version behind it. Nothing but the
first line counts, and of that only what lies in the first 256 bytes of the script.
-/
namespace Folio.Language
variable {name version path last command language : Text} {words : List Text} {content front rest : Bytes}

/-! ### Names -/

theorem exists_entry_of_lookUp {table : List (String × String)} {key : Text}
    (h : lookUp table key = some language) : ∃ entry ∈ table, entry.1.toList = key := by
  obtain ⟨entry, hentry, -⟩ := Option.map_eq_some_iff.1 h
  exact ⟨entry, List.mem_of_find?_eq_some hentry, by simpa using List.find?_some hentry⟩

theorem isVersion_getLast {c : Char} (h : lookUp interpreters name = some language)
    (hc : name.getLast? = some c) : isVersion c = false := by
  have htable : ∀ entry ∈ interpreters, entry.1.toList.getLast?.any isVersion = false := by decide
  obtain ⟨entry, hentry, rfl⟩ := exists_entry_of_lookUp h
  simpa [hc] using htable entry hentry

/-- No interpreter is known by a name with a version, so that the name is found without it. -/
theorem ofInterpreter?_append (h : lookUp interpreters name = some language)
    (hversion : ∀ c ∈ version, isVersion c = true) : ofInterpreter? (name ++ version) = some language := by
  have hname : name.reverse.dropWhile isVersion = name.reverse := by
    cases hr : name.reverse with
    | nil => rfl
    | cons c front =>
      have hlast : name.getLast? = some c := by rw [← List.head?_reverse, hr, List.head?_cons]
      simp [isVersion_getLast h hlast]
  have hstrip : ((name ++ version).reverse.dropWhile isVersion).reverse = name := by
    rw [List.reverse_append, List.dropWhile_append_of_pos (by simpa using hversion), hname, List.reverse_reverse]
  by_cases hnil : version = []
  · rw [ofInterpreter?, hnil, List.append_nil, h]
    rfl
  · have hlast : (name ++ version).getLast? = some (version.getLast hnil) := by
      rw [List.getLast?_append_of_ne_nil name hnil, List.getLast?_eq_some_getLast hnil]
    have hnone : lookUp interpreters (name ++ version) = none := by
      rw [Option.eq_none_iff_forall_ne_some]
      intro other hother
      have hdigit := isVersion_getLast hother hlast
      rw [hversion _ (List.getLast_mem hnil)] at hdigit
      cases hdigit
    rw [ofInterpreter?, hnone, hstrip, h]
    rfl

theorem lastPart_eq (h : (path.splitOn '/').getLast? = some last) : lastPart path = last := by
  obtain ⟨init, hpieces⟩ := List.getLast?_eq_some_iff.1 h
  have hslash : '/' ∉ last := Text.notMem_of_mem_splitOn (hpieces ▸ List.mem_concat_self)
  have htake : ∀ behind : Text, (last.reverse ++ behind).takeWhile (· ≠ '/') =
      last.reverse ++ behind.takeWhile (· ≠ '/') := by
    intro behind
    refine List.takeWhile_append_of_pos fun c hc => ?_
    have hne : c ≠ '/' := fun he => hslash (he ▸ List.mem_reverse.1 hc)
    simpa using hne
  have hpath : path = ['/'].intercalate (init ++ [last]) := by rw [← hpieces, List.intercalate_splitOn]
  by_cases hinit : init = []
  · have hlast := htake []
    rw [List.append_nil, List.takeWhile_nil, List.append_nil] at hlast
    rw [hpath, hinit, List.nil_append, List.intercalate_singleton, lastPart, hlast, List.reverse_reverse]
  · rw [hpath, Text.intercalate_append hinit (List.cons_ne_nil _ _), List.intercalate_singleton, lastPart,
      List.reverse_append, List.reverse_cons, List.append_assoc, htake]
    simp

/-! ### Words -/

/-- The words of a line hand over to an interpreter: the program itself, or the first word behind the options
of a program that ends in `/env`. -/
inductive HandsTo : List Text → Text → Prop where
  | program {program : Text} {others : List Text} (h : ¬ "/env".toList <:+ program) :
    HandsTo (program :: others) program
  | env {program word : Text} {options others : List Text} (h : "/env".toList <:+ program)
    (hoptions : ∀ option ∈ options, option.head? = some '-') (hword : word.head? ≠ some '-') :
    HandsTo (program :: (options ++ word :: others)) word

theorem HandsTo.interpreter?_eq {word : Text} (h : HandsTo words word) : interpreter? words = some word := by
  cases h with
  | program h => rw [interpreter?, if_neg (by simpa using h)]
  | env h hoptions hword =>
    rw [interpreter?, if_pos (by simpa using h), List.find?_append, List.find?_eq_none.2 (by simpa using hoptions),
      Option.none_or, List.find?_cons_of_pos (by simpa using hword)]

theorem trim_mark (command : Text) :
    Text.trim ('#' :: '!' :: command) = '#' :: '!' :: Text.trimEnd command := by
  have hstart : Text.trimStart ('#' :: '!' :: command) = '#' :: '!' :: command := rfl
  rw [Text.trim, hstart, Text.trimEnd_cons _ (by decide), Text.trimEnd_cons _ (by decide)]

theorem ofLine?_mark (command : Text) : ofLine? ('#' :: '!' :: command) =
    (interpreter? (Text.words command)).bind fun program => ofInterpreter? (lastPart program) := by
  rw [ofLine?, trim_mark, ← Text.words_trimEnd]
  rfl

/-! ### Bytes -/

theorem firstLine_take (content : Bytes) : firstLine (content.take headSize) = firstLine content := by
  rw [firstLine, firstLine, List.take_take, Nat.min_self]

theorem firstLine_append_newline (front rest : Bytes) : firstLine (front ++ 10 :: rest) = firstLine front := by
  have hnone : ∀ n, ((10 :: rest : Bytes).take n).takeWhile (· ≠ 10) = [] := by
    intro n
    cases n <;> simp
  rw [firstLine, firstLine, List.take_append, List.takeWhile_append, hnone, List.append_nil]
  split
  next hall => exact ((List.takeWhile_prefix _).eq_of_length hall).symm
  next => rfl

theorem firstLine_eq_self (h : 10 ∉ front) (hsize : front.length ≤ headSize) : firstLine front = front := by
  rw [firstLine, List.take_of_length_le hsize, List.takeWhile_eq_self_iff]
  intro b hb
  have hne : b ≠ 10 := fun he => h (he ▸ hb)
  simpa using hne

/-- An interpreter line is read as one: the language is that of the interpreter whose name, perhaps with a
version, is the last part of the path that the line hands over to. Only the first 256 bytes count, and of these
only those in front of a newline. -/
theorem sniff?_interpreterLine :
    (∀ command words interpreter name version language rest, Text.HasWords words command →
        HandsTo words interpreter → (interpreter.splitOn '/').getLast? = some (name ++ version) →
        lookUp interpreters name = some language → (∀ c ∈ version, isVersion c = true) →
        let line := Utf8.encode ('#' :: '!' :: command)
        10 ∉ line → line.length < 256 → sniff? (line ++ 10 :: rest) = some language) ∧
      (∀ content, sniff? (content.take 256) = sniff? content) ∧
      ∀ front rest, sniff? (front ++ 10 :: rest) = sniff? front := by
  refine ⟨?_, ?_, ?_⟩
  · intro command words interpreter name version language rest hwords hinterpreter hpart hname hversion line
      hnewline hsize
    have hline : firstLine (line ++ 10 :: rest) = line :=
      (firstLine_append_newline line rest).trans (firstLine_eq_self hnewline hsize.le)
    have hdecode : Utf8.decode? line = some ('#' :: '!' :: command) := Utf8.decode?_eq_some_iff.2 rfl
    rw [sniff?, hline, hdecode, Option.bind_some, ofLine?_mark, hwords.words_eq, hinterpreter.interpreter?_eq,
      Option.bind_some, lastPart_eq hpart, ofInterpreter?_append hname hversion]
  · intro content
    exact congrArg (fun line => (Utf8.decode? line).bind ofLine?) (firstLine_take content)
  · intro front rest
    rw [sniff?, sniff?, firstLine_append_newline]

theorem sniff?_interpreterLine_env :
    let command := " /usr/bin/env -S -u ./bin/python3.12 -x\r".toList
    let words := ["/usr/bin/env".toList, "-S".toList, "-u".toList, "./bin/python3.12".toList, "-x".toList]
    let line := Utf8.encode ('#' :: '!' :: command)
    Text.HasWords words command ∧ HandsTo words "./bin/python3.12".toList ∧
      lookUp interpreters "python".toList = some "python".toList ∧ 10 ∉ line ∧ line.length < 256 ∧
      ∀ rest, sniff? (line ++ 10 :: rest) = some "python".toList := by
  intro command words line
  have hwords : Text.HasWords words command := Text.words_eq_iff.1 (by decide)
  have hinterpreter : HandsTo words "./bin/python3.12".toList :=
    @HandsTo.env _ _ ["-S".toList, "-u".toList] ["-x".toList] (by decide) (by decide) (by decide)
  have hversion : ∀ c ∈ "3.12".toList, isVersion c = true := List.all_eq_true.1 (by decide)
  have hnewline : 10 ∉ line := by decide
  have hsize : line.length < 256 := by decide
  refine ⟨hwords, hinterpreter, by decide, hnewline, hsize, fun rest => ?_⟩
  exact sniff?_interpreterLine.1 command words _ "python".toList "3.12".toList _ rest hwords hinterpreter
    (by decide) (by decide) hversion hnewline hsize

end Folio.Language
