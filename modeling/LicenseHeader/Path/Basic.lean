/-! Path texts, their components, file names and extensions. -/
namespace LicenseHeader

structure Path where
  text : String
deriving DecidableEq, Repr, Inhabited

inductive Component
  | root
  | here
  | parent
  | name (s : String)
deriving DecidableEq, Repr

namespace Component

def text : Component → String
  | root => "/"
  | here => "."
  | parent => ".."
  | name s => s

end Component

namespace Path

/-- A segment that says nothing: an empty one, or a dot after the start of the path. -/
def isVoid (segment : List Char) : Bool :=
  segment == [] || segment == ['.']

def segmentComponent? (segment : List Char) : Option Component :=
  if isVoid segment then none
  else if segment == ['.', '.'] then some .parent
  else some (.name (String.ofList segment))

/-- A path taken apart: the component it starts with, if that is the root or a dot, and the
segments after it. -/
def parts (cs : List Char) : Option Component × List (List Char) :=
  match cs with
  | '/' :: rest => (some .root, rest.splitOn '/')
  | ['.'] => (some .here, [[]])
  | '.' :: '/' :: rest => (some .here, [] :: rest.splitOn '/')
  | cs => (none, cs.splitOn '/')

/-- The components of a path. Repeated slashes, dots after the start and slashes at the end
leave none. -/
def components (p : Path) : List Component :=
  let (start, segments) := parts p.text.toList
  start.toList ++ segments.filterMap segmentComponent?

def isAbsolute (p : Path) : Bool :=
  p.text.toList.head? == some '/'

def endsInSlash (p : Path) : Bool :=
  p.text.toList.getLast? == some '/'

/-- Whether the last segment says nothing, so that the path can only name a directory. -/
def namesDirectory (p : Path) : Bool :=
  (parts p.text.toList).2.getLast?.any isVoid

def join (base tail : Path) : Path :=
  if tail.isAbsolute then tail
  else if base.text == "" || base.endsInSlash then ⟨base.text ++ tail.text⟩
  else ⟨base.text ++ "/" ++ tail.text⟩

def ofComponents (cs : List Component) : Path :=
  cs.foldl (fun p c => p.join ⟨c.text⟩) ⟨""⟩

def fileName? (p : Path) : Option String :=
  match p.components.getLast? with
  | some (.name s) => some s
  | _ => none

/-- Cut a name at its final dot. A dot that starts the name does not count. -/
def cutAtDot? (name : List Char) : Option (List Char × List Char) :=
  match name.reverse.dropWhile (· != '.') with
  | _ :: stem@(_ :: _) => some (stem.reverse, (name.reverse.takeWhile (· != '.')).reverse)
  | _ => none

def nameExtension? (name : String) : Option String :=
  (cutAtDot? name.toList).map fun (_, extension) => String.ofList extension

def extension? (p : Path) : Option String :=
  p.fileName?.bind nameExtension?

end Path
end LicenseHeader
