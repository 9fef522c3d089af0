import Folio.CommandLine.Arguments

/-!
# Usage

What is shown to a user who asks for help or whose command line is refused.
-/
namespace Folio.CommandLine

def Refusal.message : Refusal → Text
  | .unknownOption => "unknown option".toList
  | .missingValue => "an option needs a value".toList
  | .badNumber => "the number of jobs lies between 1 and 65535".toList
  | .repeated => "an option was given twice".toList
  | .unwantedValue => "a switch takes no value".toList
  | .help => "help was asked for".toList
  | .version => "the version was asked for".toList

def usageLines : List String :=
  ["Usage: wrap-codeblocks [OPTIONS] [PATTERNS]...",
   "",
   "Options:",
   "  -i, --ignore <PATTERN>      add a pattern to exclude",
   "  -f, --filetype <EXTS=LANG>  set the language of extensions",
   "      --root <DIR>            set the root of the tree",
   "      --ignore-file <NAME>    set the name of exclusion files",
   "      --config <FILE>         read settings from a file",
   "      --no-config             read no settings",
   "      --follow-links          follow symbolic links",
   "  -j, --jobs <JOBS>           set the number of jobs",
   "  -v, --verbose               report what is done",
   "  -h, --help                  show this help",
   "  -V, --version               show the version"]

end Folio.CommandLine
