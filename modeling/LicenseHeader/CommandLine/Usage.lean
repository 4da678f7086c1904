import LicenseHeader.CommandLine.Option

/-! The help texts and the version. -/
namespace LicenseHeader.CommandLine

def programName : String := "licensure"

def programVersion : String := "0.3.0"

/-- What one option is about, and the values it may have, each with its meaning. -/
structure OptionHelp where
  option : Opt
  about : String
  longAbout : String
  default : Option String
  values : List (String × String)

def optionHelps : List OptionHelp := [
  ⟨.root, "Directory to scan recursively", "Directory to scan recursively", some ".", []⟩,
  ⟨.license, "File holding the canonical license text", "File holding the canonical license text",
    none, []⟩,
  ⟨.write, "Insert the license header into files missing it",
    "Insert the license header into files missing it", none, []⟩,
  ⟨.config, "Path to config file (default: .licensure.toml in the scanned root)",
    "Path to config file (default: .licensure.toml in the scanned root)", none, []⟩,
  ⟨.noConfig, "Ignore config file even if present", "Ignore config file even if present", none,
    []⟩,
  ⟨.verbose, "Increase verbosity (-v info, -vv debug, -vvv trace)",
    "Increase verbosity (-v info, -vv debug, -vvv trace)", none, []⟩,
  ⟨.quiet, "Only print the paths of files missing the header",
    "Only print the paths of files missing the header", none, []⟩,
  ⟨.colors, "Control when to use colored output (auto, never, always)",
    "Control when to use colored output (auto, never, always)", some "auto",
    [("auto", "Automatically determine whether to use colors based on TTY detection"),
      ("never", "Never use colors"), ("always", "Always use colors")]⟩,
  ⟨.help, "Print help (see more with '--help')", "Print help (see a summary with '-h')", none,
    []⟩,
  ⟨.version, "Print version", "Print version", none, []⟩]

def fill (width : Nat) (s : String) : String :=
  s ++ String.ofList (List.replicate (width - s.length) ' ')

def Opt.listed (o : Opt) : String :=
  (match o.short? with
    | some c => "-" ++ c.toString ++ ", "
    | none => "    ") ++ o.text

def OptionHelp.short (h : OptionHelp) : List String :=
  let default := h.default.elim "" fun d => " [default: " ++ d ++ "]"
  let values :=
    if h.values.isEmpty then ""
    else " [possible values: " ++ ", ".intercalate (h.values.map (·.1)) ++ "]"
  ["  " ++ fill 23 h.option.listed ++ h.about ++ default ++ values]

def OptionHelp.long (h : OptionHelp) : List String :=
  let indent := fill 10 ""
  let values :=
    if h.values.isEmpty then []
    else
      "" :: (indent ++ "Possible values:") ::
        h.values.map fun (v, about) => indent ++ "- " ++ fill 8 (v ++ ":") ++ about
  let default := h.default.elim [] fun d => [indent, indent ++ "[default: " ++ d ++ "]"]
  ("  " ++ h.option.listed) :: (indent ++ h.longAbout) :: values ++ default ++ [""]

def helpLines (long : Bool) : List String :=
  let options :=
    if long then optionHelps.flatMap (·.long) else optionHelps.flatMap (·.short) ++ [""]
  [programName ++ " v" ++ programVersion,
    "",
    "Checks that every source file in a tree begins with a license header rendered in the " ++
      "file's comment syntax, and optionally inserts missing headers in place.",
    "",
    "Usage: " ++ programName ++ " [OPTIONS] " ++ Opt.license.text,
    "",
    "Options:"] ++
  options ++
  ["Examples:",
    "  # Check that every file under src/ carries the header",
    "  licensure --root src --license LICENSE",
    "",
    "  # Insert the header into files missing it",
    "  licensure --root . --license LICENSE --write",
    "",
    "  # Only print the paths of files missing the header",
    "  licensure --license LICENSE --quiet",
    "",
    "Exit status: 0 when every file has the header, 1 when some file is missing",
    "it, 2 on any other error."]

def versionLine : String :=
  programName ++ " " ++ programVersion

end LicenseHeader.CommandLine
