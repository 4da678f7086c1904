import LicenseHeader.Path.Basic

/-! File trees as values: directories, files and symbolic links. -/
namespace LicenseHeader

inductive Node
  | file (content : ByteArray)
  | link (target : Path)
  | dir (entries : List (String × Node))
deriving Inhabited

/-- The names on the way from the top of a tree to one of its nodes. -/
abbrev Location := List String

namespace Node

def isDir : Node → Bool
  | dir _ => true
  | _ => false

def child? : Node → String → Option Node
  | dir entries, name => entries.lookup name
  | _, _ => none

/-- The node at a location. Links on the way are not followed. -/
def at? (n : Node) : Location → Option Node
  | [] => some n
  | name :: rest => (n.child? name).bind (·.at? rest)

/-- Change the first entry of a name, or add one. The function has the old node, if there is
one, and says what the new one is. -/
def alterEntry (name : String) (f : Option Node → Option Node) :
    List (String × Node) → List (String × Node)
  | [] => ((f none).map (name, ·)).toList
  | e :: rest =>
    if e.1 = name then ((f (some e.2)).map (name, ·)).toList ++ rest
    else e :: alterEntry name f rest

def alter (f : Option Node → Option Node) : Location → Node → Node
  | [], n => (f (some n)).getD n
  | [name], dir entries => dir (alterEntry name f entries)
  | name :: rest, dir entries => dir (alterEntry name (·.map (alter f rest)) entries)
  | _ :: _, n => n

def put (n : Node) (loc : Location) (new : Node) : Node :=
  alter (fun _ => some new) loc n

def erase (n : Node) (loc : Location) : Node :=
  alter (fun _ => none) loc n

mutual

def files : Node → List (Location × ByteArray)
  | file content => [([], content)]
  | link _ => []
  | dir entries => filesOf entries
termination_by structural n => n

def filesOf : List (String × Node) → List (Location × ByteArray)
  | [] => []
  | (name, n) :: rest => n.files.map (fun (loc, c) => (name :: loc, c)) ++ filesOf rest
termination_by structural es => es

end

end Node

inductive FileError
  | notFound
  | isDirectory
  | notDirectory
  | linkLoop
  | notUtf8
  | nulInPath
  | emptyPath
  | other (text : String)
deriving DecidableEq, Repr

def FileError.message : FileError → String
  | notFound => "No such file or directory (os error 2)"
  | isDirectory => "Is a directory (os error 21)"
  | notDirectory => "Not a directory (os error 20)"
  | linkLoop => "Too many levels of symbolic links (os error 40)"
  | notUtf8 => "stream did not contain valid UTF-8"
  | nulInPath => "file name contained an unexpected NUL byte"
  | emptyPath => "cannot make an empty path absolute"
  | other text => text

end LicenseHeader
