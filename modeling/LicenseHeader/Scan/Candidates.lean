import LicenseHeader.FileTree.Access
import LicenseHeader.Ignore
import LicenseHeader.Registry

/-! The candidates of a scan: the files below its root that have a registered extension and
are neither hidden nor ignored. -/
namespace LicenseHeader

inductive WalkError
  | badPattern (pattern : String) (cause : Glob.Error)
  | badRoot (root : Path) (cause : FileError)
deriving DecidableEq, Repr

def WalkError.message : WalkError → String
  | badPattern pattern cause => "error parsing glob '" ++ pattern ++ "': " ++ cause.message
  | badRoot root cause =>
    root.text ++ ": IO error for operation on " ++ root.text ++ ": " ++ cause.message

inductive ScanError
  | noHeader (files : List Path)
  | file (path : Path) (cause : FileError)
  | walk (cause : WalkError)
deriving DecidableEq, Repr

namespace ScanError

def cause? : ScanError → Option String
  | noHeader _ => none
  | file _ cause => some cause.message
  | walk cause => some cause.message

def message : ScanError → String
  | noHeader files =>
    "\n".intercalate ("No license content in the following files:" :: files.map (·.text))
  | file path cause => "I/O error on '" ++ path.text ++ "': " ++ cause.message
  | walk cause => "Failed to walk directory tree: " ++ cause.message

end ScanError

namespace Scan

open Ignore (Level RulePair)

def isHidden (name : String) : Bool :=
  name.toList.head? == some '.'

def sortByName {α : Type} (xs : List (String × α)) : List (String × α) :=
  xs.mergeSort fun a b => !decide (Text.byteLt b.1 a.1)

mutual

/-- The locations of the files that a walk of a directory selects, each directory in the byte
order of its names. Directories that are hidden or ignored are not entered, and links are not
followed. `rules` has the ignore rules of each directory, and `loc` is where this one is. -/
def walk (rules : Location → RulePair) (selects : String → Bool) (levels : List Level)
    (loc : Location) : Node → List Location
  | .dir entries => (sortByName (walkEntries rules selects levels loc entries)).flatMap (·.2)
  | _ => []
termination_by structural n => n

def walkEntries (rules : Location → RulePair) (selects : String → Bool) (levels : List Level)
    (loc : Location) : List (String × Node) → List (String × List Location)
  | [] => []
  | (name, n) :: rest =>
    let here := loc ++ [name]
    let selected :=
      if isHidden name || Ignore.isIgnored levels name n.isDir then []
      else
        match n with
        | .file _ => if selects name then [here] else []
        | .link _ => []
        | .dir entries =>
          walk rules selects (Ignore.descend levels name (rules here)) here (.dir entries)
    (name, selected) :: walkEntries rules selects levels loc rest
termination_by structural es => es

end

def licenseIgnoreName : String := ".licenseignore"

def versionIgnoreName : String := ".gitignore"

def pathBelow (root : Path) (loc : Location) : Path :=
  loc.foldl (fun p name => p.join ⟨name⟩) root

/-- The rules of an ignore file. One that cannot be read has none. -/
def rulesAt (fs : FileSystem) (file : Path) : List Ignore.Rule :=
  match fs.readBytes file with
  | .ok content => Ignore.rulesOf content
  | .error _ => []

def rulesBelow (fs : FileSystem) (root : Path) (loc : Location) : RulePair :=
  let dir := pathBelow root loc
  ⟨rulesAt fs (dir.join ⟨licenseIgnoreName⟩), rulesAt fs (dir.join ⟨versionIgnoreName⟩)⟩

def globs (registry : Registry) : Except WalkError (List (List Glob.Token)) :=
  registry.patterns.mapM fun pattern =>
    match Glob.parse false pattern.toList with
    | .ok tokens => .ok tokens
    | .error e => .error (.badPattern pattern e)

def matchesSome (globs : List (List Glob.Token)) (name : String) : Bool :=
  globs.any fun g => Glob.matchesBytes g (Text.bytes name)

/-- The candidates below an absolute root. A file as root is its own and only candidate. -/
def candidatesBelow (fs : FileSystem) (globs : List (List Glob.Token)) (root : Path) :
    Except WalkError (List Path) :=
  match fs.node root with
  | .error e => .error (.badRoot root e)
  | .ok (.dir entries) =>
    let rules := rulesBelow fs root
    let selected := walk rules (matchesSome globs) [⟨rules [], []⟩] [] (.dir entries)
    .ok (selected.map (pathBelow root))
  | .ok _ => .ok [root]

/-- One item after another that a scan is given: a file, or a failure to get the next one. -/
abbrev Items := List (Except ScanError Path)

/-- The items of a scan of a root: its candidates, or the failure to reach the root. A bad
pattern or a root without absolute form is an error at once. -/
def items (fs : FileSystem) (registry : Registry) (root : Path) : Except ScanError Items := do
  let root ← match fs.absolute root with
    | .ok p => .ok p
    | .error e => .error (.file root e)
  match globs registry with
  | .error e => .error (.walk e)
  | .ok globs =>
    match candidatesBelow fs globs root with
    | .error e => .ok [.error (.walk e)]
    | .ok files => .ok (files.map .ok)

end Scan
end LicenseHeader
