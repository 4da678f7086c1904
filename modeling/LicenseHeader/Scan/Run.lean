import LicenseHeader.FileTree.Edit
import LicenseHeader.Header.Cache
import LicenseHeader.Header.Placement
import LicenseHeader.Scan.Candidates

/-! Scans: checking one candidate after another for its header, and the report of it. -/
namespace LicenseHeader.Scan

inductive Outcome
  | compliant
  | missing
  | written
deriving DecidableEq, Repr

def Outcome.isViolation : Outcome → Bool
  | compliant => false
  | missing => true
  | written => true

structure State where
  fs : FileSystem
  cache : HeaderCache

def checkHeader (write : Bool) (fs : FileSystem) (path : Path) (header : String) :
    Except FileError (Outcome × FileSystem) := do
  let content ← fs.readText path
  let (present, updated) := Header.round content header
  if present then .ok (.compliant, fs)
  else if write then return (.written, ← fs.writeText path updated)
  else .ok (.missing, fs)

/-- Check a file. One without a registered extension is passed over unread. The header goes
into the cache before the file is read. -/
def checkFile (registry : Registry) (write : Bool) (s : State) (path : Path) :
    Except ScanError (Option Outcome) × State :=
  match registry.lookupPath path with
  | none => (.ok none, s)
  | some (extension, style) =>
    let (header, cache) := s.cache.get extension style
    match checkHeader write s.fs path header with
    | .error e => (.error (.file path e), { s with cache })
    | .ok (outcome, fs) => (.ok (some outcome), ⟨fs, cache⟩)

structure Summary where
  scanned : Nat
  compliant : Nat
  missing : Nat
  written : Nat
  extensions : Nat
deriving DecidableEq, Repr

def Summary.record (s : Summary) (o : Outcome) : Summary :=
  let s := { s with scanned := s.scanned + 1 }
  match o with
  | .compliant => { s with compliant := s.compliant + 1 }
  | .missing => { s with missing := s.missing + 1 }
  | .written => { s with written := s.written + 1 }

def Summary.message (s : Summary) : String :=
  s!"Scanned {s.scanned} files: {s.compliant} compliant, {s.missing} missing, {s.written} written"

/-- What a scan has found so far: its counts, and the files without header in scan order. -/
structure Report where
  summary : Summary
  violations : List Path
deriving DecidableEq, Repr

namespace Report

def empty : Report := ⟨⟨0, 0, 0, 0, 0⟩, []⟩

/-- One more file with its outcome. A file that was passed over does not count. -/
def record (r : Report) (path : Path) : Option Outcome → Report
  | none => r
  | some o =>
    ⟨r.summary.record o, if o.isViolation then r.violations ++ [path] else r.violations⟩

/-- A scan succeeds if no file lacked its header, written or not. -/
def verdict (r : Report) : Except ScanError Summary :=
  if r.violations.isEmpty then .ok r.summary else .error (.noHeader r.violations)

end Report

/-- Check items in order, up to the first failure. -/
def checkItems (registry : Registry) (write : Bool) (s : State) (r : Report) :
    Items → Except ScanError Report × State
  | [] => (.ok { r with summary := { r.summary with extensions := s.cache.size } }, s)
  | .error e :: _ => (.error e, s)
  | .ok path :: rest =>
    match checkFile registry write s path with
    | (.error e, s) => (.error e, s)
    | (.ok outcome, s) => checkItems registry write s (r.record path outcome) rest

def scan (registry : Registry) (write : Bool) (license : License) (fs : FileSystem)
    (items : Items) : Except ScanError Report × FileSystem :=
  let (result, s) := checkItems registry write ⟨fs, .new license⟩ .empty items
  (result, s.fs)

def loadLicense (fs : FileSystem) (path : Path) : Except ScanError License :=
  match fs.readText path with
  | .ok text => .ok (.ofRaw text)
  | .error e => .error (.file path e)

structure Options where
  root : Path
  license : Path
  write : Bool
deriving DecidableEq, Repr

def run (registry : Registry) (o : Options) (fs : FileSystem) :
    Except ScanError Report × FileSystem :=
  match loadLicense fs o.license with
  | .error e => (.error e, fs)
  | .ok license =>
    match items fs registry o.root with
    | .error e => (.error e, fs)
    | .ok items => scan registry o.write license fs items

end LicenseHeader.Scan
