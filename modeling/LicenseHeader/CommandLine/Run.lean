import LicenseHeader.CommandLine.LogFilter
import LicenseHeader.CommandLine.Report
import LicenseHeader.CommandLine.Usage
import LicenseHeader.Config.Load

/-! Runs of the program: from the arguments, the environment and the files to what is written
and the exit status. -/
namespace LicenseHeader.CommandLine

inductive Exit
  | compliant
  | violations
  | failure
deriving DecidableEq, Repr

def Exit.code : Exit → Nat
  | compliant => 0
  | violations => 1
  | failure => 2

/-- What a run answers: its exit status, and the lines it writes to standard output and to
standard error. -/
structure Response where
  exit : Exit
  output : List String
  errors : List String
deriving DecidableEq, Repr

def Stop.response : Stop → Response
  | .error e => ⟨.failure, [], ["error: " ++ e.message]⟩
  | .help long => ⟨.compliant, helpLines long, []⟩
  | .version => ⟨.compliant, [versionLine], []⟩

def errorLine (message : String) (cause : Option String) : String :=
  "ERROR: " ++ message ++ cause.elim "" (": " ++ ·)

def configVariable (env : Environment) : Option Path :=
  (env Config.environmentVariable).map Path.mk

def configNotes (env : Environment) (a : Arguments) (fs : FileSystem) (root : Path) :
    List String :=
  if a.noConfig then ["Config file discovery disabled (--no-config)"]
  else
    let search := Config.search fs root a.config (configVariable env)
    let absent := search.absent.toList.map fun p =>
      Config.environmentVariable ++ " path does not exist: " ++ p.text
    match search.found with
    | none => absent ++ ["No config file found"]
    | some source =>
      let found := match source with
        | .argument p => "Using explicit config path: " ++ p.text
        | .environment p => "Using config from " ++ Config.environmentVariable ++ ": " ++ p.text
        | .root p => "Using root config: " ++ p.text
      let loaded := (Config.load fs source.path).toOption.toList.map fun c =>
        "Loaded " ++ toString c.size ++ " comment style overrides"
      absent ++ [found, "Loading config from: " ++ source.path.text] ++ loaded

def logVariable : String := "RUST_LOG"

def scanPart : String := "licensure::processor"

/-- The log line of a scan, if the log filter admits it. -/
def scanLog (env : Environment) (a : Arguments) (s : Scan.Summary) : List String :=
  let filter := LogFilter.choose (env logVariable) (.ofOptions a.quiet a.verbosity)
  if filter.admits scanPart .info then ["INFO " ++ s.message] else []

def environmentVariables : List String :=
  [Config.environmentVariable, logVariable, colorVariable, plainColorVariable]

def scanRoot (env : Environment) (a : Arguments) (root : Path) (fs : FileSystem) :
    Response × FileSystem :=
  let notes := if a.detail = .verbose then configNotes env a fs root else []
  match Config.choose fs root a.noConfig a.config (configVariable env) with
  | .error e => (⟨.failure, [], notes ++ [errorLine e.message e.cause?]⟩, fs)
  | .ok config =>
    let look : Look := ⟨a.detail, a.colors.isColored env, a.write⟩
    match Scan.run (config.elim .builtin Config.registry) ⟨root, a.license, a.write⟩ fs with
    | (.error e, fs) =>
      let message := "Failed to check " ++ root.text ++ ": " ++ e.message
      (⟨.failure, look.started root, notes ++ [errorLine message e.cause?]⟩, fs)
    | (.ok report, fs) =>
      let exit := if report.violations.isEmpty then .compliant else .violations
      (⟨exit, look.started root ++ look.finished root report,
        notes ++ scanLog env a report.summary⟩, fs)

def check (env : Environment) (a : Arguments) (fs : FileSystem) : Response × FileSystem :=
  match fs.absolute a.root with
  | .error e =>
    let e := ScanError.file a.root e
    (⟨.failure, [], [errorLine e.message e.cause?]⟩, fs)
  | .ok root => scanRoot env a root fs

def run (env : Environment) (arguments : List String) (fs : FileSystem) :
    Response × FileSystem :=
  match parse arguments with
  | .error stop => (stop.response, fs)
  | .ok a => check env a fs

end LicenseHeader.CommandLine
