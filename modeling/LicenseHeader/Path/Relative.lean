import LicenseHeader.Path.Basic

/-! Paths written relative to a base, for display, and absolute paths, made without looking at the
file system. -/
namespace LicenseHeader.Path

/-- Exactly two slashes at the start stay two; one, or three and more, become one. -/
def startsWithTwoSlashes (p : Path) : Bool :=
  match p.text.toList with
  | ['/', '/'] => true
  | '/' :: '/' :: c :: _ => c != '/'
  | _ => false

/-- The absolute form of a path seen from the directory `cwd`: dots and repeated slashes go,
steps to a parent stay, and so does a slash at the end. An empty path has none. -/
def absolute? (cwd p : Path) : Option Path :=
  if p.text == "" then none
  else
    let start : Path :=
      if p.startsWithTwoSlashes then ⟨"//"⟩ else if p.isAbsolute then ⟨"/"⟩ else cwd
    let named := p.components.filter fun c => c != .root && c != .here
    let path := named.foldl (fun q c => q.join ⟨c.text⟩) start
    some (if p.endsInSlash then path.join ⟨""⟩ else path)

def dropVoidEnd (segments : List (List Char)) : List (List Char) :=
  (segments.reverse.dropWhile isVoid).reverse

def dropSegments : Nat → List (List Char) → List (List Char)
  | 0, segments => segments
  | _ + 1, [] => []
  | n + 1, s :: rest => if isVoid s then dropSegments (n + 1) rest else dropSegments n rest

def writeSegments (segments : List (List Char)) : String :=
  String.ofList (['/'].intercalate segments)

/-- The text of a path after its first `n` components: from the start of the next one to the
end of the last. -/
def textAfter (n : Nat) (p : Path) : String :=
  let (start, segments) := parts p.text.toList
  match n, start with
  | 0, some c => c.text ++ writeSegments (dropVoidEnd segments)
  | 0, none => writeSegments (dropVoidEnd segments)
  | n + 1, some _ => writeSegments (dropVoidEnd ((dropSegments n segments).dropWhile isVoid))
  | n + 1, none => writeSegments (dropVoidEnd ((dropSegments (n + 1) segments).dropWhile isVoid))

def stripBase? (p base : Path) : Option String :=
  if base.components.isPrefixOf p.components then some (textAfter base.components.length p)
  else none

/-- The steps from one list of components to another, none if the way there would have to
leave a parent of unknown name. `apart` says that the lists have already parted. -/
def steps? (apart : Bool) : List Component → List Component → Option (List Component)
  | [], [] => some []
  | a :: as, [] => some (a :: as)
  | [], _ :: bs => (steps? true [] bs).map (.parent :: ·)
  | a :: as, b :: bs =>
    if !apart && a == b then steps? false as bs
    else if b == .here then (steps? true as bs).map (a :: ·)
    else if b == .parent then none
    else some (.parent :: bs.map (fun _ => .parent) ++ a :: as)

/-- The way from `base` to a path, if both start at the root or neither does. An absolute
path is its own way from a relative base. -/
def wayFrom? (p base : Path) : Option Path :=
  if p.isAbsolute == base.isAbsolute then
    (steps? false p.components base.components).map ofComponents
  else if p.isAbsolute then some p
  else none

def relativeTo (p base : Path) : String :=
  let shown := (p.stripBase? base).getD ((p.wayFrom? base).getD p).text
  String.ofList (shown.toList.map fun c => if c == '\\' then '/' else c)

end LicenseHeader.Path
