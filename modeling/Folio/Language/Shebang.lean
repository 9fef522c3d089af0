import Folio.Language.Table
import Folio.Text.Blank
import Folio.Text.Utf8

/-!
# Interpreter lines

A script can name its interpreter on its first line. Only the first 256 bytes of a file are looked at,
and of those only the bytes before the first newline.
-/
namespace Folio.Language

/-- The number of bytes that are looked at. -/
def headSize : Nat := 256

/-- The first line of a file, as far as it is looked at. -/
def firstLine (content : Bytes) : Bytes := (content.take headSize).takeWhile (· ≠ 10)

def lastPart (path : Text) : Text := (path.reverse.takeWhile (· ≠ '/')).reverse

/-- The interpreter that the words of a line name: a program that ends in `/env` hands over to the
first word that is no option. -/
def interpreter? : List Text → Option Text
  | [] => none
  | program :: words =>
    if "/env".toList.isSuffixOf program then words.find? fun w => w.head? ≠ some '-'
    else some program

def ofLine? (line : Text) : Option Text :=
  match Text.trim line with
  | '#' :: '!' :: command =>
    (interpreter? (Text.words command)).bind fun program => ofInterpreter? (lastPart program)
  | _ => none

/-- The language that the first line of a file gives away. -/
def sniff? (content : Bytes) : Option Text := (Utf8.decode? (firstLine content)).bind ofLine?

end Folio.Language
