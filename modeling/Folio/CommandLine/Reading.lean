import Folio.CommandLine.Arguments

/-!
# Reading a command line

Words are read from left to right. A long option stands alone or with its value behind an equals sign,
and single letters may share one hyphen until one of them takes a value. A value in a word of its own is
taken up only when the next option or target is met, so an unknown option behind it is refused first.
-/
namespace Folio.CommandLine

inductive Named where
  | setting (s : Setting)
  | switch (s : Switch)
  deriving DecidableEq

def longNames : List (Text × Named) :=
  [("ignore".toList, .setting .rule), ("filetype".toList, .setting .mapping),
   ("root".toList, .setting .root), ("ignore-file".toList, .setting .exclusionFile),
   ("config".toList, .setting .settingsFile), ("no-config".toList, .switch .noSettings),
   ("follow-links".toList, .switch .followLinks), ("jobs".toList, .setting .jobs),
   ("verbose".toList, .switch .verbose), ("help".toList, .switch .help),
   ("version".toList, .switch .version)]

def letters : List (Char × Named) :=
  [('i', .setting .rule), ('f', .setting .mapping), ('j', .setting .jobs), ('v', .switch .verbose),
   ('h', .switch .help), ('V', .switch .version)]

/-- An option whose value is not taken up yet, or was not even met. -/
structure Pending where
  setting : Setting
  value : Option Text
  deriving DecidableEq

structure Reading where
  arguments : Arguments
  pending : Option Pending

namespace Reading

def settle (r : Reading) : Except Refusal Arguments :=
  match r.pending with
  | none => .ok r.arguments
  | some ⟨_, none⟩ => .error .missingValue
  | some ⟨s, some value⟩ => r.arguments.set s value

def option (r : Reading) (s : Setting) (value : Option Text) : Except Refusal Reading := do
  let a ← r.settle
  match value with
  | some value => return ⟨← a.set s value, none⟩
  | none => return ⟨a, some ⟨s, none⟩⟩

def switch (r : Reading) (s : Switch) : Except Refusal Reading := do
  return ⟨← (← r.settle).turnOn s, none⟩

/-- A word behind two hyphens. -/
def long (r : Reading) (word : Text) : Except Refusal Reading :=
  let (name, value) := match Text.cutAt? '=' word with
    | some (name, value) => (name, some value)
    | none => (word, none)
  match longNames.lookup name, value with
  | some (.setting s), value => r.option s value
  | some (.switch s), none => r.switch s
  | some (.switch _), some _ => .error .unwantedValue
  | none, _ => .error .unknownOption

/-- Letters behind one hyphen. What follows a letter that takes a value is the value, and an equals
sign may stand between them. -/
def short (r : Reading) : Text → Except Refusal Reading
  | [] => .ok r
  | c :: rest =>
    match letters.lookup c with
    | some (.switch s) => do short (← r.switch s) rest
    | some (.setting s) =>
      r.option s (if rest = [] then none else some ((Text.afterFirst? '=' rest).getD rest))
    | none => .error .unknownOption

/-- A word that is no option: the value that is waited for, or a target. -/
def plain (r : Reading) (word : Text) : Except Refusal Reading :=
  match r.pending with
  | some ⟨s, none⟩ => .ok ⟨r.arguments, some ⟨s, some word⟩⟩
  | _ => do
    let a ← r.settle
    return ⟨{ a with targets := a.targets ++ [word] }, none⟩

/-- Read words up to the end. Two hyphens alone make targets of all that follows. -/
def words (r : Reading) : List Text → Except Refusal Arguments
  | [] => r.settle
  | word :: rest =>
    match word with
    | ['-', '-'] => do
      let a ← r.settle
      return { a with targets := a.targets ++ rest }
    | '-' :: '-' :: name => do words (← r.long name) rest
    | '-' :: c :: cs => do words (← r.short (c :: cs)) rest
    | word => do words (← r.plain word) rest

end Reading

/-- The arguments on a command line. `preset` names the file of settings if no option does. -/
def read (words : List Text) (preset : Option Text) : Except Refusal Arguments := do
  let a ← Reading.words ⟨.empty, none⟩ words
  match a.settingsFile, preset with
  | none, some value => a.set .settingsFile value
  | _, _ => return a

end Folio.CommandLine
