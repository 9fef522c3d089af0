import Mathlib.Data.List.Basic
import Folio.Run
import Folio.Proofs.Disk.Loss
import Folio.Proofs.Document.Batches

/-!
# Runs that lose files

On a disk without links a file may be taken away just before its language is asked for. It is missing from
the document then, whether or not its language shows without reading it, and nothing else changes.
-/
namespace Folio
open Document

namespace Disk
variable {disk left : Disk} {path : Path} {content : Content}

end Disk

namespace Selection
open Disk
variable {disk left : Disk} {detector : Language.Detector} {c : Candidate} {f : SourceFile}
  {candidates : List Candidate} {gone lost : Place → Bool}

end Selection

namespace Disk
variable {disk : Disk} {f : SourceFile}

end Disk

namespace Document
variable {read read' : Reader} {files : List SourceFile}

end Document

namespace Options
variable {o : Options} {disk left : Disk} {root : Path} {detector : Language.Detector}

end Options
end Folio
