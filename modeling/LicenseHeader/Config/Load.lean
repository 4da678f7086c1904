import LicenseHeader.Config.Document
import LicenseHeader.FileTree.Access

/-! Finding the configuration of a run and loading it. -/
namespace LicenseHeader

inductive ConfigError
  | unreadable (path : Path) (cause : FileError)
  | malformed (path : Path)
  | invalid (extension : String) (flaw : Flaw)
deriving DecidableEq, Repr

def ConfigError.message : ConfigError → String
  | unreadable path cause => "Failed to read config file '" ++ path.text ++ "': " ++ cause.message
  | malformed path => "Failed to parse config file '" ++ path.text ++ "'"
  | invalid extension flaw =>
    "Invalid comment style for '" ++ extension ++ "': " ++ flaw.message

def ConfigError.cause? : ConfigError → Option String
  | unreadable _ cause => some cause.message
  | malformed _ => none
  | invalid .. => none

namespace Config

def parse (path : Path) (text : String) : Except ConfigError Config :=
  match ofToml? text with
  | none => .error (.malformed path)
  | some c =>
    match c.flaw? with
    | some (extension, flaw) => .error (.invalid extension flaw)
    | none => .ok c

def load (fs : FileSystem) (path : Path) : Except ConfigError Config :=
  match fs.readText path with
  | .error e => .error (.unreadable path e)
  | .ok text => parse path text

inductive Source
  | argument (path : Path)
  | environment (path : Path)
  | root (path : Path)
deriving DecidableEq, Repr

def Source.path : Source → Path
  | argument p => p
  | environment p => p
  | root p => p

def fileName : Path := ⟨".licensure.toml"⟩

def environmentVariable : String := "LICENSURE_CONFIG"

/-- What a search for the configuration file found, and the path in the environment if nothing
is there. -/
structure Search where
  absent : Option Path
  found : Option Source
deriving DecidableEq, Repr

/-- Look for a configuration file: the argument, if there is one, whether or not it exists, then
the path in the environment, then the root. -/
def search (fs : FileSystem) (root : Path) (argument environment : Option Path) : Search :=
  let inRoot :=
    let p := root.join fileName
    if fs.pathExists p then some (.root p) else none
  match argument, environment with
  | some p, _ => ⟨none, some (.argument p)⟩
  | none, none => ⟨none, inRoot⟩
  | none, some p =>
    if fs.pathExists p then ⟨none, some (.environment p)⟩ else ⟨some p, inRoot⟩

def choose (fs : FileSystem) (root : Path) (off : Bool) (argument environment : Option Path) :
    Except ConfigError (Option Config) :=
  if off then .ok none
  else
    match (search fs root argument environment).found with
    | none => .ok none
    | some source => (load fs source.path).map some

end Config
end LicenseHeader
