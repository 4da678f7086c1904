import LicenseHeader.CommandLine.Run

/-! The program: it reads the files that a run may use into a tree, runs, and writes the files
that the run changed. -/
namespace LicenseHeader.Main

def systemPath (loc : Location) : String :=
  "/" ++ "/".intercalate loc

def kind? (path : String) : IO (Option IO.FS.FileType) := do
  let here ← IO.currentDir
  try
    return some (← (here / path).symlinkMetadata).type
  catch _ => return none

def namesIn (path : String) : IO (List String) := do
  let here ← IO.currentDir
  try
    return ((← (here / path).readDir).map (·.fileName)).toList
  catch _ => return []

def readFile? (path : String) : IO (Option Node) := do
  try
    return some (.file (← IO.FS.readBinFile path))
  catch _ => return none

/-- The link that has a path. It leads to where the system says that it leads in the end. -/
def readLink (path : String) : IO Node := do
  try
    return .link ⟨(← IO.FS.realPath path).toString⟩
  catch _ => return .link ⟨""⟩

/-- The tree below a directory. Of what no scan enters, the hidden directories, it has
nothing, and in place of a link to an ignore file it has that file. -/
partial def readTree (path : String) : IO Node := do
  let mut entries := #[]
  for name in ← namesIn path do
    let here := (Path.join ⟨path⟩ ⟨name⟩).text
    let node? ← match ← kind? here with
      | some .file => readFile? here
      | some .dir => if Scan.isHidden name then pure none else some <$> readTree here
      | some .symlink =>
        if name == Scan.licenseIgnoreName || name == Scan.versionIgnoreName then readFile? here
        else some <$> readLink here
      | _ => pure none
    if let some node := node? then
      entries := entries.push (name, node)
  return .dir entries.toList

/-- Add what components lead to from a location, and what is on the way. `deep` asks for the
tree below a directory too. -/
partial def addAlong (deep : Bool) (root : Node) (loc : Location) : List Component → IO Node
  | [] => do
    if deep && root.isDirAt loc then return root.put loc (← readTree (systemPath loc))
    else return root
  | .root :: rest => addAlong deep root [] rest
  | .here :: rest => addAlong deep root loc rest
  | .parent :: rest => addAlong deep root loc.dropLast rest
  | .name s :: rest => do
    let next := loc ++ [s]
    match ← kind? (systemPath next) with
    | some .dir =>
      let root := if root.isDirAt next then root else root.put next (.dir [])
      addAlong deep root next rest
    | some .symlink =>
      match ← readLink (systemPath next) with
      | .link target => addAlong deep (root.put next (.link target)) [] (target.components ++ rest)
      | node => return root.put next node
    | some .file => return (← readFile? (systemPath next)).elim root (root.put next)
    | _ => return root

def addPath (deep : Bool) (fs : FileSystem) (p : Path) : IO FileSystem := do
  let start := if p.isAbsolute then [] else fs.cwd.components
  return { fs with root := ← addAlong deep fs.root [] (start ++ p.components) }

def readFiles (env : CommandLine.Environment) (a : CommandLine.Arguments) (cwd : Path) :
    IO FileSystem := do
  let mut fs ← addPath false ⟨.dir [], cwd⟩ cwd
  fs ← addPath true fs a.root
  for p in [a.root.join Config.fileName, a.license] ++ a.config.toList ++
      (CommandLine.configVariable env).toList do
    fs ← addPath false fs p
  return fs

def writeFiles (before after : FileSystem) : IO Unit := do
  for (loc, content) in after.root.files do
    match before.root.at? loc with
    | some (.file old) =>
      unless old == content do
        IO.FS.writeBinFile (systemPath loc) content
    | _ => IO.FS.writeBinFile (systemPath loc) content

end LicenseHeader.Main

open LicenseHeader in
def main (arguments : List String) : IO UInt32 := do
  let values ← CommandLine.environmentVariables.mapM fun name => return (name, ← IO.getEnv name)
  let env : CommandLine.Environment := fun name => (values.lookup name).join
  let cwd : Path := ⟨(← IO.currentDir).toString⟩
  let before ← match CommandLine.parse arguments with
    | .ok a => Main.readFiles env a cwd
    | .error _ => pure ⟨.dir [], cwd⟩
  let (response, after) := CommandLine.run env arguments before
  Main.writeFiles before after
  response.output.forM IO.println
  response.errors.forM IO.eprintln
  return response.exit.code.toUInt32
