import LicenseHeader.Proofs.Loop

/-! The verdict of a run, in terms of the files it starts from. -/
namespace LicenseHeader.Scan

section
variable {registry : Registry} {license : License} {write : Bool} {fs : FileSystem} {p : Path}
  {files : List Path}

theorem isViolation_outcome? (registry : Registry) (license : License) (write : Bool)
    (fs : FileSystem) (p : Path) :
    (outcome? registry license write fs p).any Outcome.isViolation =
      lacks registry license fs p := by
  rw [outcome?]
  cases hasked : headerFor? registry license p with
  | none => simp [lacks, hasked]
  | some header => cases lacks registry license fs p <;> cases write <;> rfl

def reportOf (registry : Registry) (license : License) (write : Bool) (fs : FileSystem)
    (files : List Path) : Report :=
  let found :=
    files.foldl (fun r p => r.record p (outcome? registry license write fs p)) Report.empty
  { found with summary := { found.summary with
    extensions := (extensionsOf registry files).card } }

theorem violations_reportOf (registry : Registry) (license : License) (write : Bool)
    (fs : FileSystem) (files : List Path) :
    (reportOf registry license write fs files).violations =
      files.filter (lacks registry license fs) := by
  simp only [reportOf, violations_foldl_record, isViolation_outcome?]
  rfl

theorem verdict_reportOf (registry : Registry) (license : License) (write : Bool)
    (fs : FileSystem) (files : List Path) :
    (reportOf registry license write fs files).verdict =
      if files.filter (lacks registry license fs) = [] then
        .ok (reportOf registry license write fs files).summary
      else .error (.noHeader (files.filter (lacks registry license fs))) := by
  simp only [Report.verdict, violations_reportOf, List.isEmpty_iff]

/-- A run fails before it looks at any file, or is the loop over its candidates. -/
theorem run_cases (registry : Registry) (o : Options) (fs : FileSystem) :
    (∃ e, e.IsFailure ∧ run registry o fs = (.error e, fs)) ∨
    ∃ (license : License) (files : List Path), loadLicense fs o.license = .ok license ∧
      items fs registry o.root = .ok (files.map .ok) ∧
      run registry o fs = scan registry o.write license fs (files.map .ok) := by
  rw [run]
  cases hlicense : loadLicense fs o.license with
  | error e =>
    refine .inl ⟨e, ?_, rfl⟩
    rw [loadLicense] at hlicense
    split at hlicense
    · cases hlicense
    · exact Except.error.inj hlicense ▸ ScanError.isFailure_file _ _
  | ok license =>
    rcases items_cases fs registry o.root with ⟨e, he, hitems⟩ | ⟨e, he, hitems⟩ | ⟨files, hitems⟩
    · exact .inl ⟨e, he, by rw [hitems]⟩
    · exact .inl ⟨e, he, by rw [hitems]; rfl⟩
    · exact .inr ⟨license, files, rfl, hitems, by rw [hitems]⟩

theorem run_eq_scan {o : Options} (hlicense : loadLicense fs o.license = .ok license)
    (hitems : items fs registry o.root = .ok (files.map .ok)) :
    run registry o fs = scan registry o.write license fs (files.map .ok) := by
  rw [run, hlicense]
  simp only [hitems]

/-- A scan of files at different places succeeds exactly if all of them are legible, and then
reports what they are at its start. -/
theorem scan_eq_ok {report : Report} (apart : files.Pairwise (Apart fs)) :
    (scan registry write license fs (files.map .ok)).1 = .ok report ↔
      (∀ p ∈ files, Legible registry fs p) ∧
        report = reportOf registry license write fs files := by
  have hstart := HeaderCache.renders_new registry license
  rw [scan, checkItems_eq_ok (s := ⟨fs, .new license⟩) hstart apart,
    HeaderCache.extensions_new, Finset.union_empty]
  rfl

/-- A run over candidates reports what they are at its start. -/
theorem run_eq_ok {o : Options} {report : Report} (tree : fs.root.WellFormed)
    (hlicense : loadLicense fs o.license = .ok license)
    (hitems : items fs registry o.root = .ok (files.map .ok)) :
    (run registry o fs).1 = .ok report ↔
      (∀ p ∈ files, Legible registry fs p) ∧
        report = reportOf registry license o.write fs files := by
  obtain ⟨top, globs, -, -, hfiles⟩ := items_eq_ok.mp hitems
  rw [run_eq_scan hlicense hitems, scan_eq_ok (candidates_comesTo tree hfiles).2.2]

theorem scan_single {fs' : FileSystem} {extension header old new : String} {style : Style}
    (hlookup : registry.lookupPath p = some (extension, style))
    (hheader : style.header license.text = header) (hread : fs.readText p = .ok old)
    (hround : Header.round old header = (false, new)) (hwrite : fs.writeText p new = .ok fs') :
    scan registry true license fs [.ok p] = (.ok ⟨⟨1, 0, 0, 1, 1⟩, [p]⟩, fs') := by
  have hget : (HeaderCache.new license).get extension style =
      (header, ⟨license, [(extension, header)]⟩) := by
    rw [HeaderCache.get, ← hheader]
    rfl
  have hcheck : checkHeader true fs p header = .ok (.written, fs') := by
    rw [checkHeader, hread]
    simp only [bind, Except.bind, hround, hwrite]
    rfl
  have hfile : checkFile registry true ⟨fs, .new license⟩ p =
      (.ok (some .written), ⟨fs', ⟨license, [(extension, header)]⟩⟩) := by
    rw [checkFile, hlookup]
    simp only [hget, hcheck]
  rw [scan, checkItems, hfile]
  rfl

end

theorem absolute_root {fs : FileSystem} (hcwd : fs.cwd = ⟨"/"⟩) :
    fs.absolute ⟨"/"⟩ = .ok ⟨"/"⟩ := by
  have hroot : Path.absolute? ⟨"/"⟩ ⟨"/"⟩ = some ⟨"/"⟩ := by decide +kernel
  rw [FileSystem.absolute, hcwd, hroot]

/-- Two Python files and their license. The second has its header. -/
def halfDone : FileSystem where
  root := .dir [("LICENSE", .file "L".toUTF8), ("a.py", .file "x".toUTF8),
    ("b.py", .file "# L\nx".toUTF8)]
  cwd := ⟨"/"⟩

end LicenseHeader.Scan
