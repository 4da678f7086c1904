import LicenseHeader.FileTree.Node
import LicenseHeader.Path.Relative
import LicenseHeader.Text

/-! The node a path leads to, through parents and symbolic links, and what is read there. -/
namespace LicenseHeader

/-- Where a path leads: to a node, or to a name that its directory does not have. -/
inductive Target
  | existing (loc : Location)
  | vacant (parent : Location) (name : String)
deriving DecidableEq, Repr

inductive Advance
  | arrived (target : Target)
  | link (parent : Location) (target : Path) (rest : List Component)

namespace Node

def isDirAt (root : Node) (loc : Location) : Bool :=
  (root.at? loc).any isDir

/-- Go from a location along components, up to the first link. Only from a directory is there
a way on. -/
def advance (root : Node) : Location → List Component → Except FileError Advance
  | loc, [] => .ok (.arrived (.existing loc))
  | _, .root :: rest => advance root [] rest
  | loc, .here :: rest => if root.isDirAt loc then advance root loc rest else .error .notDirectory
  | loc, .parent :: rest =>
    if root.isDirAt loc then advance root loc.dropLast rest else .error .notDirectory
  | loc, .name s :: rest =>
    if root.isDirAt loc then
      match root.at? (loc ++ [s]) with
      | none => if rest.isEmpty then .ok (.arrived (.vacant loc s)) else .error .notFound
      | some (.link target) => .ok (.link loc target rest)
      | some _ => advance root (loc ++ [s]) rest
    else .error .notDirectory

/-- Go from a location along components, through at most `links` links. The answer also says
whether what is there has to be a directory, because the path or a last link says so. -/
def follow (root : Node) (needsDir : Bool) :
    (links : Nat) → Location → List Component → Except FileError (Target × Bool)
  | links, loc, path =>
    match advance root loc path with
    | .error e => .error e
    | .ok (.arrived target) => .ok (target, needsDir)
    | .ok (.link parent target rest) =>
      match links with
      | 0 => .error .linkLoop
      | links + 1 =>
        if target.text == "" then .error .notFound
        else
          follow root (needsDir || (rest.isEmpty && target.namesDirectory)) links parent
            (target.components ++ rest)

end Node

/-- A file tree and the absolute path of the directory that relative paths start from. -/
structure FileSystem where
  root : Node
  cwd : Path
deriving Inhabited

namespace FileSystem

def maxLinks : Nat := 40

/-- Where a path leads, and whether what is there has to be a directory. -/
def locate (fs : FileSystem) (p : Path) : Except FileError (Target × Bool) :=
  if p.text == "" then .error .notFound
  else if p.text.toList.contains '\x00' then .error .nulInPath
  else
    let start := if p.isAbsolute then [] else fs.cwd.components
    fs.root.follow p.namesDirectory maxLinks [] (start ++ p.components)

def node (fs : FileSystem) (p : Path) : Except FileError Node := do
  match ← fs.locate p with
  | (.vacant .., _) => .error .notFound
  | (.existing loc, needsDir) =>
    match fs.root.at? loc with
    | none => .error .notFound
    | some n => if needsDir && !n.isDir then .error .notDirectory else .ok n

def readBytes (fs : FileSystem) (p : Path) : Except FileError ByteArray := do
  match ← fs.node p with
  | .file content => .ok content
  | .dir _ => .error .isDirectory
  | .link _ => .error .linkLoop

def readText (fs : FileSystem) (p : Path) : Except FileError String := do
  match Text.decode? (← fs.readBytes p) with
  | some text => .ok text
  | none => .error .notUtf8

def pathExists (fs : FileSystem) (p : Path) : Bool :=
  (fs.node p).toOption.isSome

def absolute (fs : FileSystem) (p : Path) : Except FileError Path :=
  match Path.absolute? fs.cwd p with
  | some q => .ok q
  | none => .error .emptyPath

end FileSystem

end LicenseHeader
