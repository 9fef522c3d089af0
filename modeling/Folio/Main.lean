import Folio.CommandLine.Execution
import Folio.CommandLine.Reading
import Folio.CommandLine.Usage

/-!
# The program

The part of the real file tree that a command can reach is read once, and the command is carried out on
it. Words and file names come here as text. The document goes to the standard output and all reports go
to the standard error.
-/
namespace Folio.Program

def path (name : String) : Path := ⟨Utf8.ofString name⟩

/-- The part of a target in front of its first wildcard, up to a slash. -/
def fixedPart (target : Text) : Text :=
  if target.any (fun c => c = '*' || c = '?' || c = '[') then
    let before := target.takeWhile fun c => c ≠ '*' && c ≠ '?' && c ≠ '['
    (before.reverse.dropWhile (· ≠ '/')).reverse
  else target

/-- The paths below which a command can look. -/
def starts (a : CommandLine.Arguments) (home : Option Path) : List Text :=
  let settingsFile := a.settingsFile <|> home.map CommandLine.settingsFileIn
  [['.']] ++ (a.root.map Path.shown).toList ++ (settingsFile.map Path.shown).toList ++
    (a.targets.map fixedPart).filter (· ≠ [])

/-- A path that no file has. Links that lead nowhere are recorded with it. -/
def nowhere : Bytes := [Path.slash, 0]

/-- Add what stands at a place of the file tree, and where links in it lead. -/
partial def record (disk : Disk) (entry : IO.FS.DirEntry) : IO Disk := do
  let name := entry.path.toString
  try
    match (← entry.path.symlinkMetadata).type with
    | .dir =>
      let mut disk := disk.makeDirectory (path name)
      for e in ← entry.path.readDir do
        disk ← record disk e
      return disk
    | .file =>
      let modified := (← entry.path.metadata).modified.sec
      return disk.write (path name) (← IO.FS.readBinFile entry.path).toList modified
    | .symlink =>
      if ← entry.path.pathExists then
        let target := (← IO.FS.realPath entry.path).toString
        let disk := disk.place (path name) (.link (Utf8.ofString target))
        if disk.exists? (path target) then return disk else record disk ⟨entry.root, target⟩
      else return disk.place (path name) (.link nowhere)
    | .other => return disk
  catch _ => return disk

def snapshot (starts : List Text) : IO Disk := do
  let here ← IO.currentDir
  let current := ((Utf8.ofString here.toString).splitOn Path.slash).filter (· ≠ [])
  let mut disk := Disk.blank current
  for start in starts do
    try
      let real ← IO.FS.realPath (here / String.ofList start)
      disk ← record disk ⟨here, real.toString⟩
    catch _ => pure ()
  return disk

end Folio.Program

open Folio in
def main (words : List String) : IO UInt32 := do
  let preset ← IO.getEnv "WRAP_CODEBLOCKS_CONFIG"
  match CommandLine.read (words.map String.toList) (preset.map String.toList) with
  | .error .help =>
    for line in CommandLine.usageLines do
      IO.println line
    return 0
  | .error .version =>
    IO.print (String.ofList CommandLine.versionText)
    return 0
  | .error refusal =>
    IO.eprintln (String.ofList ("error: ".toList ++ refusal.message))
    return 2
  | .ok arguments =>
    let home := (← IO.getEnv "HOME").map Program.path
    let disk ← Program.snapshot (Program.starts arguments home)
    let outcome := arguments.execute home disk
    for event in Event.shown arguments.verbose outcome.events do
      IO.eprintln (String.ofList event.line)
    IO.print (String.ofList outcome.output)
    match outcome.failure with
    | none => return 0
    | some failure =>
      IO.eprintln (String.ofList ("Error: ".toList ++ failure.message))
      return 1
