import LicenseHeader.CommandLine.Run
import LicenseHeader.Proofs.Arguments
import LicenseHeader.Proofs.Configured
import LicenseHeader.Proofs.Verdict

/-! What a run needs before it looks at any file: a root, a configuration that is not broken, a
license, and patterns. Without one of them it fails and changes nothing. -/
namespace LicenseHeader

namespace Config

/-- A configuration file that cannot be read, is no document of the right form, or has a style with
a flaw. -/
inductive Broken (fs : FileSystem) (path : Path) : Prop
  | unreadable {cause : FileError} (h : fs.readText path = .error cause)
  | malformed {text : String} (read : fs.readText path = .ok text) (h : ofToml? text = none)
  | invalid {text : String} {config : Config} {e : String × StyleEntry}
    (read : fs.readText path = .ok text) (document : ofToml? text = some config)
    (mem : e ∈ config.styles) (h : ¬ e.2.Sound e.1)

section
variable {fs : FileSystem} {root path : Path} {argument environment : Option Path}

theorem broken_iff : Broken fs path ↔ ∃ e, load fs path = .error e := by
  rw [load]
  cases hread : fs.readText path with
  | error cause => exact ⟨fun _ => ⟨_, rfl⟩, fun _ => .unreadable hread⟩
  | ok text =>
    simp only
    constructor
    · intro h
      cases hparse : parse path text with
      | error e => exact ⟨e, rfl⟩
      | ok config =>
        obtain ⟨hdocument, hsound⟩ := parse_eq_ok.mp hparse
        cases h with
        | unreadable h => cases hread.symm.trans h
        | malformed read h =>
          obtain rfl := Except.ok.inj (hread.symm.trans read)
          cases h.symm.trans hdocument
        | invalid read document mem h =>
          obtain rfl := Except.ok.inj (hread.symm.trans read)
          obtain rfl := Option.some.inj (document.symm.trans hdocument)
          exact absurd (hsound _ mem) h
    · rintro ⟨e, he⟩
      cases hdocument : ofToml? text with
      | none => exact .malformed hread hdocument
      | some config =>
        by_cases hsound : ∀ e ∈ config.styles, e.2.Sound e.1
        · cases (parse_eq_ok.mpr ⟨hdocument, hsound⟩).symm.trans he
        · push Not at hsound
          obtain ⟨e, hmem, hflaw⟩ := hsound
          exact .invalid hread hdocument hmem hflaw

end
end Config

namespace CommandLine

/-- The configuration file that the arguments and the environment select: that of the arguments,
whether or not it exists, else that of the environment, if it exists, else that of the root. -/
inductive Selects (env : Environment) (a : Arguments) (fs : FileSystem) (root : Path) :
    Config.Source → Prop
  | argument {p : Path} (given : a.config = some p) : Selects env a fs root (.argument p)
  | environment {p : Path} (on : a.noConfig = false) (none : a.config = none)
    (value : configVariable env = some p) (existing : fs.pathExists p = true) :
    Selects env a fs root (.environment p)
  | root (on : a.noConfig = false) (none : a.config = none)
    (absent : ∀ p, configVariable env = some p → fs.pathExists p = false)
    (existing : fs.pathExists (root.join Config.fileName) = true) :
    Selects env a fs root (.root (root.join Config.fileName))

/-- What keeps a run from looking at any file. The scan makes the root absolute once more. -/
inductive SetupFailure (env : Environment) (a : Arguments) (fs : FileSystem) : Prop
  | root {e : FileError} (h : fs.absolute a.root = .error e)
  | config {root : Path} {source : Config.Source} (absolute : fs.absolute a.root = .ok root)
    (selected : Selects env a fs root source) (h : Config.Broken fs source.path)
  | license {e : FileError} (h : fs.readText a.license = .error e)
  | pattern {root : Path} {config : Option Config} {extension : String} {e : Glob.Error}
    (absolute : fs.absolute a.root = .ok root)
    (chosen : Config.choose fs root a.noConfig a.config (configVariable env) = .ok config)
    (registered : extension ∈ (config.elim Registry.builtin Config.registry).extensions)
    (h : Scan.globOf extension = .error e)
  | absent {root : Path} (absolute : fs.absolute a.root = .ok root)
    (h : ∀ top, fs.absolute root = .ok top → ∃ e, fs.node top = .error e)

/-- What a run has when it starts to look at files. -/
structure Prepared (env : Environment) (a : Arguments) (fs : FileSystem) where
  root : Path
  absolute : fs.absolute a.root = .ok root
  config : Option Config
  chosen : Config.choose fs root a.noConfig a.config (configVariable env) = .ok config
  license : License
  loaded : Scan.loadLicense fs a.license = .ok license
  files : List Path
  candidates : Scan.items fs (config.elim .builtin Config.registry) root = .ok (files.map .ok)

def Prepared.registry {env : Environment} {a : Arguments} {fs : FileSystem}
    (s : Prepared env a fs) : Registry :=
  s.config.elim .builtin Config.registry

section
variable {env : Environment} {a : Arguments} {fs : FileSystem} {root : Path}
  {source : Config.Source} {arguments : List String}

/-- A search finds what is selected, if configuration is not off. -/
theorem found_eq_some_iff (on : a.noConfig = false) :
    (Config.search fs root a.config (configVariable env)).found = some source ↔
      Selects env a fs root source := by
  constructor
  · intro h
    -- without an existing file of the environment, the one of the root is left
    have hroot (hnone : a.config = none)
        (absent : ∀ p, configVariable env = some p → fs.pathExists p = false)
        (h : (if fs.pathExists (root.join Config.fileName) then
          some (Config.Source.root (root.join Config.fileName)) else none) = some source) :
        Selects env a fs root source := by
      split at h
      · next existing =>
        obtain rfl := Option.some.inj h
        exact .root on hnone absent existing
      · cases h
    unfold Config.search at h
    split at h
    · next p _ hgiven =>
      obtain rfl := Option.some.inj h
      exact .argument hgiven
    · next hnone hunset => exact hroot hnone (by simp [hunset]) h
    · next p hnone hvalue =>
      split at h
      · next existing =>
        obtain rfl := Option.some.inj h
        exact .environment on hnone hvalue existing
      · next absent => exact hroot hnone (by simpa [hvalue] using absent) h
  · intro h
    cases h with
    | argument given => rw [given, Config.search]
    | environment on none value existing => simp [Config.search, none, value, existing]
    | root on none absent existing =>
      cases hvalue : configVariable env with
      | none => simp [Config.search, none, existing]
      | some p => simp [Config.search, none, existing, absent p hvalue]

theorem choose_of_selects (parsed : parse arguments = .ok a) (h : Selects env a fs root source) :
    Config.choose fs root a.noConfig a.config (configVariable env) =
      (Config.load fs source.path).map some := by
  have on : a.noConfig = false := by
    cases h with
    | argument given => exact noConfig_of_config parsed given
    | environment on => exact on
    | root on => exact on
  rw [Config.choose, on, (found_eq_some_iff on).mpr h]
  rfl

theorem exists_selects_of_error {e : ConfigError}
    (h : Config.choose fs root a.noConfig a.config (configVariable env) = .error e) :
    ∃ source, Selects env a fs root source ∧ Config.load fs source.path = .error e := by
  rw [Config.choose] at h
  split at h
  · cases h
  · next hoff =>
    split at h
    · cases h
    · next source hfound =>
      have on : a.noConfig = false := by simpa using hoff
      refine ⟨source, (found_eq_some_iff on).mp hfound, ?_⟩
      cases hload : Config.load fs source.path with
      | error e' => simpa [hload, Except.map] using h
      | ok config => simp [hload, Except.map] at h

theorem SetupFailure.not_prepared (h : SetupFailure env a fs) (parsed : parse arguments = .ok a)
    (s : Prepared env a fs) : False := by
  cases h with
  | root h => cases h.symm.trans s.absolute
  | config absolute selected h =>
    obtain rfl := Except.ok.inj (absolute.symm.trans s.absolute)
    obtain ⟨e, he⟩ := Config.broken_iff.mp h
    have hchosen := (choose_of_selects parsed selected).symm.trans s.chosen
    rw [he] at hchosen
    cases hchosen
  | license h =>
    have hloaded := s.loaded
    rw [Scan.loadLicense, h] at hloaded
    cases hloaded
  | pattern absolute chosen registered h =>
    obtain rfl := Except.ok.inj (absolute.symm.trans s.absolute)
    obtain rfl := Except.ok.inj (chosen.symm.trans s.chosen)
    obtain ⟨_, _, -, hgs, -⟩ := Scan.items_eq_ok.mp s.candidates
    rcases Scan.globs_cases (s.config.elim .builtin Config.registry) with
      ⟨_, -, hall, -⟩ | ⟨_, -, _, -, herror⟩
    · obtain ⟨g, hg⟩ := hall _ registered
      cases hg.symm.trans h
    · cases hgs.symm.trans herror
  | absent absolute h =>
    obtain rfl := Except.ok.inj (absolute.symm.trans s.absolute)
    obtain ⟨top, _, htop, -, hfiles⟩ := Scan.items_eq_ok.mp s.candidates
    obtain ⟨n, hn⟩ := Scan.exists_node_of_candidatesBelow hfiles
    obtain ⟨e, he⟩ := h top htop
    cases he.symm.trans hn

theorem items_or_failure (fs : FileSystem) (registry : Registry) (root : Path) :
    (∃ files : List Path, Scan.items fs registry root = .ok (files.map .ok)) ∨
    (∃ extension ∈ registry.extensions, ∃ e, Scan.globOf extension = .error e) ∨
    ∀ top, fs.absolute root = .ok top → ∃ e, fs.node top = .error e := by
  rcases Scan.globs_cases registry with ⟨gs, hgs, -⟩ | ⟨extension, hmem, e, he, -⟩
  · by_cases habsent : ∀ top, fs.absolute root = .ok top → ∃ e, fs.node top = .error e
    · exact .inr (.inr habsent)
    · push Not at habsent
      obtain ⟨top, htop, hnode⟩ := habsent
      obtain ⟨n, hn⟩ : ∃ n, fs.node top = .ok n := by
        cases hresult : fs.node top with
        | error e => exact absurd hresult (hnode e)
        | ok n => exact ⟨n, rfl⟩
      obtain ⟨files, hfiles⟩ := Scan.exists_candidates_of_node gs hn
      exact .inl ⟨files, Scan.items_eq_ok.mpr ⟨top, gs, htop, hgs, hfiles⟩⟩
  · exact .inr (.inl ⟨extension, hmem, e, he⟩)

theorem setupFailure_or_prepared (env : Environment) (a : Arguments) (fs : FileSystem) :
    SetupFailure env a fs ∨ Nonempty (Prepared env a fs) := by
  cases habsolute : fs.absolute a.root with
  | error e => exact .inl (.root habsolute)
  | ok root =>
    cases hchosen : Config.choose fs root a.noConfig a.config (configVariable env) with
    | error e =>
      obtain ⟨source, hselects, hload⟩ := exists_selects_of_error hchosen
      exact .inl (.config habsolute hselects (Config.broken_iff.mpr ⟨e, hload⟩))
    | ok config =>
      cases hread : fs.readText a.license with
      | error e => exact .inl (.license hread)
      | ok text =>
        have hloaded : Scan.loadLicense fs a.license = .ok (.ofRaw text) := by
          rw [Scan.loadLicense, hread]
        rcases items_or_failure fs (config.elim .builtin Config.registry) root with
          ⟨files, hitems⟩ | ⟨extension, hmem, e, he⟩ | habsent
        · exact .inr ⟨⟨root, habsolute, config, hchosen, _, hloaded, files, hitems⟩⟩
        · exact .inl (.pattern habsolute hchosen hmem he)
        · exact .inl (.absent habsolute habsent)

/-- A run that cannot get ready has a reason for it, and else none. -/
theorem setupFailure_iff (parsed : parse arguments = .ok a) :
    SetupFailure env a fs ↔ ¬ Nonempty (Prepared env a fs) :=
  ⟨fun h ⟨s⟩ => h.not_prepared parsed s, (setupFailure_or_prepared env a fs).resolve_right⟩

theorem check_of_chosen {config : Option Config} (absolute : fs.absolute a.root = .ok root)
    (chosen : Config.choose fs root a.noConfig a.config (configVariable env) = .ok config) :
    let out := Scan.run (config.elim .builtin Config.registry) ⟨root, a.license, a.write⟩ fs
    (check env a fs).2 = out.2 ∧
    (∀ e, out.1 = .error e → (check env a fs).1.exit = .failure ∧
      (a.detail = .quiet → (check env a fs).1.output = [])) ∧
    ∀ report, out.1 = .ok report →
      (check env a fs).1.exit = (if report.violations = [] then .compliant else .violations) ∧
      (a.detail = .quiet →
        (check env a fs).1.output = report.violations.map (·.relativeTo root)) := by
  intro out
  have hcheck : check env a fs = scanRoot env a root fs := by
    rw [check, absolute]
  rw [hcheck, scanRoot, chosen]
  have hrun : Scan.run (config.elim .builtin Config.registry) ⟨root, a.license, a.write⟩ fs =
    (out.1, out.2) := rfl
  simp only [hrun]
  cases hresult : out.1 with
  | error e =>
    refine ⟨rfl, fun e' _ => ⟨rfl, fun hquiet => ?_⟩, nofun⟩
    simp only [Look.started, hquiet, if_pos]
  | ok report =>
    refine ⟨rfl, nofun, fun report' h => ?_⟩
    obtain rfl := Except.ok.inj h
    refine ⟨by simp only [List.isEmpty_iff], fun hquiet => ?_⟩
    simp only [Look.started, Look.finished, Look.compliant, Look.violations, hquiet, if_pos,
      List.nil_append]
    split
    · next hnone => simp [List.isEmpty_iff.mp hnone]
    · rfl

/-- A run that cannot get ready fails, says nothing on standard output if it is to be quiet, and
changes nothing. -/
theorem check_of_not_prepared (h : ¬ Nonempty (Prepared env a fs)) :
    (check env a fs).1.exit = .failure ∧
      (a.detail = .quiet → (check env a fs).1.output = []) ∧ (check env a fs).2 = fs := by
  cases absolute : fs.absolute a.root with
  | error e => simp [check, absolute]
  | ok root =>
    cases chosen : Config.choose fs root a.noConfig a.config (configVariable env) with
    | error e => simp [check, absolute, scanRoot, chosen]
    | ok config =>
      rcases Scan.run_cases (config.elim .builtin Config.registry) ⟨root, a.license, a.write⟩ fs
        with ⟨e, -, hrun⟩ | ⟨license, files, hload, hitems, -⟩
      · obtain ⟨hfs, hfailure, -⟩ := check_of_chosen absolute chosen
        rw [hrun] at hfs hfailure
        obtain ⟨hexit, hquiet⟩ := hfailure e rfl
        exact ⟨hexit, hquiet, hfs⟩
      · exact absurd ⟨⟨root, absolute, config, chosen, license, hload, files, hitems⟩⟩ h

theorem run_of_parse (parsed : parse arguments = .ok a) :
    run env arguments fs = check env a fs := by
  rw [run, parsed]

/-- A run that cannot get ready exits with status 2 and leaves the files as they are. In particular
it never goes on without the configuration that is selected: if that is broken, then this is what
the run tells, whatever other configurations there are. -/
theorem run_setup (parsed : parse arguments = .ok a) :
    (SetupFailure env a fs →
      (run env arguments fs).1.exit.code = 2 ∧ (run env arguments fs).2 = fs) ∧
    ∀ root source, fs.absolute a.root = .ok root → Selects env a fs root source →
      Config.choose fs root a.noConfig a.config (configVariable env) =
        (Config.load fs source.path).map some ∧
      (Config.Broken fs source.path → SetupFailure env a fs ∧
        ∃ e, Config.load fs source.path = .error e ∧
          run env arguments fs = (⟨.failure, [],
            (if a.detail = .verbose then configNotes env a fs root else []) ++
              [errorLine e.message e.cause?]⟩, fs)) := by
  rw [run_of_parse parsed]
  refine ⟨fun h => ?_, fun root source absolute selected =>
    ⟨choose_of_selects parsed selected, fun broken => ?_⟩⟩
  · obtain ⟨hexit, -, hfs⟩ := check_of_not_prepared ((setupFailure_iff parsed).mp h)
    exact ⟨by rw [hexit]; rfl, hfs⟩
  · obtain ⟨e, he⟩ := Config.broken_iff.mp broken
    refine ⟨.config absolute selected broken, e, he, ?_⟩
    rw [check, absolute]
    simp only [scanRoot, choose_of_selects parsed selected, he]
    rfl

end

def misconfigured : FileSystem where
  root := .dir [(".licensure.toml", .file "".toUTF8), ("LICENSE", .file "L".toUTF8),
    ("a.py", .file "x".toUTF8), ("c.toml", .file "[".toUTF8)]
  cwd := ⟨"/"⟩

theorem run_setup_misconfigured :
    let env : Environment := fun name =>
      if name = Config.environmentVariable then some "/c.toml" else none
    (run env ["-w", "-l", "/LICENSE", "-r", "/"] misconfigured).1.exit.code = 2 ∧
      (run env ["-w", "-l", "/LICENSE", "-r", "/"] misconfigured).2 = misconfigured := by
  intro env
  have parsed : parse ["-w", "-l", "/LICENSE", "-r", "/"] =
      .ok ⟨⟨"/"⟩, ⟨"/LICENSE"⟩, true, none, false, 0, false, .auto⟩ := by decide +kernel
  have selected : Selects env ⟨⟨"/"⟩, ⟨"/LICENSE"⟩, true, none, false, 0, false, .auto⟩
      misconfigured ⟨"/"⟩ (.environment ⟨"/c.toml"⟩) := .environment rfl rfl rfl rfl
  have broken : Config.Broken misconfigured ⟨"/c.toml"⟩ := by
    have hnone : (Config.ofToml? "[").isNone = true := by decide +kernel
    exact .malformed (FileSystem.readText_eq_ok.mpr ⟨["c.toml"], rfl, rfl⟩)
      (Option.isNone_iff_eq_none.mp hnone)
  exact (run_setup parsed).1 (.config rfl selected broken)

end CommandLine
end LicenseHeader
