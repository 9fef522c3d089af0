import Folio.Text.Basic

/-!
# Known languages

The tables that name a language by the extension of a file, by its whole name, or by the interpreter
that its first line asks for.
-/
namespace Folio.Language

def extensions : List (String × String) :=
  [("rs", "rust"), ("c", "c"), ("h", "c"), ("cc", "c++"), ("cpp", "c++"), ("cxx", "c++"),
   ("hh", "c++"), ("hpp", "c++"), ("hxx", "c++"), ("ino", "arduino"), ("go", "go"), ("zig", "zig"),
   ("s", "gas"), ("asm", "nasm"), ("java", "java"), ("kt", "kotlin"), ("kts", "kotlin"),
   ("scala", "scala"), ("groovy", "groovy"), ("gradle", "groovy"), ("clj", "clojure"),
   ("cs", "c#"), ("fs", "f#"), ("py", "python"), ("pyi", "python"), ("rb", "ruby"), ("pl", "perl"),
   ("pm", "perl"), ("php", "php"), ("lua", "lua"), ("sh", "bash"), ("bash", "bash"),
   ("zsh", "bash"), ("fish", "fish"), ("ps1", "powershell"), ("r", "r"), ("jl", "julia"),
   ("ex", "elixir"), ("exs", "elixir"), ("erl", "erlang"), ("hs", "haskell"), ("ml", "ocaml"),
   ("mli", "ocaml"), ("dart", "dart"), ("swift", "swift"), ("nix", "nix"), ("js", "javascript"),
   ("mjs", "javascript"), ("cjs", "javascript"), ("jsx", "javascript+react"), ("ts", "typescript"),
   ("mts", "typescript"), ("cts", "typescript"), ("tsx", "tsx"), ("html", "html"), ("htm", "html"),
   ("css", "css"), ("scss", "scss"), ("sass", "sass"), ("less", "less"), ("vue", "vue"),
   ("svelte", "svelte"), ("json", "json"), ("toml", "toml"), ("yaml", "yaml"), ("yml", "yaml"),
   ("xml", "xml"), ("md", "markdown"), ("markdown", "markdown"), ("rst", "restructuredtext"),
   ("tex", "tex"), ("typ", "typst"), ("sql", "sql"), ("graphql", "graphql"), ("proto", "protobuf"),
   ("ini", "ini"), ("cfg", "ini"), ("conf", "ini"), ("csv", "text only"), ("txt", "text only"),
   ("diff", "diff"), ("patch", "diff"), ("cmake", "cmake"), ("mk", "makefile"),
   ("dockerfile", "docker"), ("tf", "terraform"), ("vim", "vim"), ("el", "emacs-lisp")]

def fileNames : List (String × String) :=
  [("Makefile", "makefile"), ("makefile", "makefile"), ("GNUmakefile", "makefile"),
   ("Dockerfile", "docker"), ("Containerfile", "docker"), ("CMakeLists.txt", "cmake"),
   ("Rakefile", "ruby"), ("Gemfile", "ruby"), ("Vagrantfile", "ruby"), ("Justfile", "just"),
   ("justfile", "just"), (".bashrc", "bash"), (".zshrc", "bash"), (".profile", "bash"),
   (".vimrc", "vim")]

def interpreters : List (String × String) :=
  [("sh", "bash"), ("bash", "bash"), ("zsh", "bash"), ("dash", "bash"), ("fish", "fish"),
   ("python", "python"), ("ruby", "ruby"), ("perl", "perl"), ("node", "javascript"),
   ("deno", "typescript"), ("lua", "lua"), ("php", "php"), ("nix-shell", "nix"), ("Rscript", "r")]

def lookUp (table : List (String × String)) (key : Text) : Option Text :=
  (table.find? fun entry => entry.1.toList = key).map fun entry => entry.2.toList

/-- A digit or a dot, as in the version that an interpreter's name may end with. -/
def isVersion (c : Char) : Bool := c.isDigit || c = '.'

/-- The language of an interpreter, by its name or by its name without a version. -/
def ofInterpreter? (name : Text) : Option Text :=
  lookUp interpreters name <|>
    lookUp interpreters (name.reverse.dropWhile isVersion).reverse

end Folio.Language
