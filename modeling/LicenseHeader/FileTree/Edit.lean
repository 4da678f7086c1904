import LicenseHeader.FileTree.Access

/-! Changing files by path, making directories and links, and taking things away. -/
namespace LicenseHeader.FileSystem

/-- Give a file new content. The file is made if its directory has no such name. -/
def writeBytes (fs : FileSystem) (p : Path) (content : ByteArray) :
    Except FileError FileSystem := do
  let (target, needsDir) ← fs.locate p
  if p.endsInSlash then .error .isDirectory
  match target with
  | .vacant parent name =>
    if needsDir then .error .notFound
    else .ok { fs with root := fs.root.put (parent ++ [name]) (.file content) }
  | .existing loc =>
    if fs.root.isDirAt loc then .error .isDirectory
    else if needsDir then .error .notDirectory
    else .ok { fs with root := fs.root.put loc (.file content) }

def writeText (fs : FileSystem) (p : Path) (text : String) : Except FileError FileSystem :=
  fs.writeBytes p text.toUTF8

def makeDirs (fs : FileSystem) (p : Path) : FileSystem :=
  (p.components.foldl (fun (fs, above) c =>
    let here := Path.join above ⟨c.text⟩
    match fs.locate here with
    | .ok (.vacant parent name, _) =>
      ({ fs with root := fs.root.put (parent ++ [name]) (.dir []) }, here)
    | _ => (fs, here)) (fs, ⟨""⟩)).1

/-- Where the last name of a path stands in its directory, whatever is there. -/
def slot? (fs : FileSystem) (p : Path) : Option Location :=
  match p.components.reverse with
  | .name s :: above =>
    match fs.locate (.ofComponents above.reverse) with
    | .ok (.existing loc, _) => some (loc ++ [s])
    | _ => none
  | _ => none

def place (fs : FileSystem) (p : Path) (n : Node) : FileSystem :=
  match fs.slot? p with
  | some loc => { fs with root := fs.root.put loc n }
  | none => fs

def remove (fs : FileSystem) (p : Path) : FileSystem :=
  match fs.slot? p with
  | some loc => { fs with root := fs.root.erase loc }
  | none => fs

end LicenseHeader.FileSystem
