import Folio.Text.Basic

/-!
# Disk faults

Why an access to the disk fails, and the words that an operating system has for it.
-/
namespace Folio.Disk

inductive Fault where
  | missing
  | notDirectory
  | isDirectory
  | tooManyLinks
  | nameTooLong
  /-- A name holds the character NUL. -/
  | badName
  /-- The bytes of a text file are no text. -/
  | notText
  /-- The output took fewer bytes than it was given. -/
  | full
  /-- A fault of which only the description is known. -/
  | described (text : Text)
  deriving DecidableEq

def Fault.message : Fault → Text
  | .missing => "No such file or directory (os error 2)".toList
  | .notDirectory => "Not a directory (os error 20)".toList
  | .isDirectory => "Is a directory (os error 21)".toList
  | .tooManyLinks => "Too many levels of symbolic links (os error 40)".toList
  | .nameTooLong => "File name too long (os error 36)".toList
  | .badName => "file name contained an unexpected NUL byte".toList
  | .notText => "stream did not contain valid UTF-8".toList
  | .full => "failed to write whole buffer".toList
  | .described text => text

end Folio.Disk
