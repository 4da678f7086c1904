/-! Comment styles: how plain text becomes a comment of some language. -/
namespace LicenseHeader

/-- A line comment puts a token in front of each line. A block comment has an opening and a
closing line besides. -/
inductive Style
  | line (lead : String)
  | block (opening lead closing : String)
deriving DecidableEq, Repr

namespace Style

def lead : Style → String
  | line lead => lead
  | block _ lead _ => lead

def isBlock : Style → Bool
  | line _ => false
  | block .. => true

/-- A block style needs both its opening and its closing line; with one alone it is a line
style. -/
def ofTokens : Option String → String → Option String → Style
  | some opening, lead, some closing => block opening lead closing
  | _, lead, _ => line lead

/-- Families of extensions with one comment style. Strict JSON has no comments, so it has no
entry. -/
def families : List (Style × List String) := [
  (block "/*" " * " " */",
    ["c", "h", "cc", "cpp", "cxx", "hh", "hpp", "hxx", "cs", "java", "js", "mjs", "cjs", "jsx",
      "ts", "mts", "cts", "tsx", "go", "rs", "swift", "kt", "kts", "scala", "groovy", "gradle",
      "dart", "css", "scss", "less", "proto", "sol"]),
  (line "# ",
    ["py", "rb", "sh", "bash", "zsh", "fish", "pl", "pm", "r", "yaml", "yml", "toml", "tf",
      "bzl", "cmake", "ps1", "coffee", "ex", "exs", "jl", "nim", "tcl", "cr"]),
  (block "<!--" "     " "-->", ["html", "htm", "xhtml", "xml", "xsd", "xsl", "svg", "vue"]),
  (line "-- ", ["sql", "hs", "lua", "elm"]),
  (line ";; ", ["el", "lisp", "clj", "cljs", "scm"]),
  (line "% ", ["erl", "hrl", "tex"]),
  (line "\" ", ["vim"])]

def builtinTable : List (String × Style) :=
  families.flatMap fun (style, extensions) => extensions.map (·, style)

def builtin? (extension : String) : Option Style :=
  builtinTable.lookup extension

end Style

end LicenseHeader
