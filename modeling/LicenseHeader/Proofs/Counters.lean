import LicenseHeader.Proofs.Failure

/-! The counts of a scan. After each item they agree with each other, with the files found without
header and with the header cache, and so they do in the report that the scan ends with. -/
namespace LicenseHeader.Scan

/-- The registered extensions of items, one for each item that has one. -/
def extensionsIn (registry : Registry) (items : Items) : List String :=
  items.filterMap fun item => item.toOption.bind fun p => (registry.lookupPath p).map (·.1)

/-- What the counts, the violations and the cache say of the items so far. -/
structure Tallied (registry : Registry) (license : License) (write : Bool) (items : Items)
    (s : State) (r : Report) : Prop where
  scanned : r.summary.scanned = (extensionsIn registry items).length
  parts : r.summary.scanned = r.summary.compliant + r.summary.missing + r.summary.written
  violations : r.summary.missing + r.summary.written = r.violations.length
  none_written : write = false → r.summary.written = 0
  none_missing : write = true → r.summary.missing = 0
  renders : HeaderCache.Renders registry license s.cache
  cached : s.cache.extensions = (extensionsIn registry items).toFinset

def Report.recount (r : Report) (k : ℕ) : Report :=
  { r with summary := { r.summary with extensions := k } }

section
variable {registry : Registry} {license : License} {write : Bool} {fs fs' : FileSystem}
  {p : Path} {s s' : State} {r report : Report} {items before first : Items} {o : Option Outcome}

theorem extensionsIn_concat (registry : Registry) (items : Items) (p : Path) :
    extensionsIn registry (items ++ [.ok p]) =
      extensionsIn registry items ++ ((registry.lookupPath p).map (·.1)).toList := by
  rw [extensionsIn, List.filterMap_append, ← extensionsIn]
  cases hlookup : registry.lookupPath p <;> simp [hlookup, Except.toOption]

theorem tallied_start (registry : Registry) (license : License) (write : Bool) (fs : FileSystem) :
    Tallied registry license write [] ⟨fs, .new license⟩ .empty where
  scanned := rfl
  parts := rfl
  violations := rfl
  none_written _ := rfl
  none_missing _ := rfl
  renders := HeaderCache.renders_new registry license
  cached := HeaderCache.extensions_new license

theorem Step.outcome_cases (h : Step registry license write fs p (.ok o) fs') :
    o.isSome = (registry.lookupPath p).isSome ∧ (write = false → o ≠ some .written) ∧
      (write = true → o ≠ some .missing) := by
  have hasked {header : String} (asked : headerFor? registry license p = some header) :
      (registry.lookupPath p).isSome = true := by
    obtain ⟨e, he, -⟩ := Option.map_eq_some_iff.mp asked
    rw [he]
    rfl
  cases h with
  | passed asked => simp [Option.map_eq_none_iff.mp asked]
  | compliant asked read found => simp [hasked asked]
  | missing lacking hw => simp [hasked lacking.asked, hw]
  | written lacking hw => simp [hasked lacking.asked, hw]

/-- One more file, whatever its outcome, leaves the counts in agreement. -/
theorem Tallied.record (h : Tallied registry license write items s r)
    (step : Step registry license write s.fs p (.ok o) s'.fs)
    (hc : HeaderCache.Renders registry license s'.cache)
    (hext : s'.cache.extensions =
      ((registry.lookupPath p).map (·.1)).toFinset ∪ s.cache.extensions) :
    Tallied registry license write (items ++ [.ok p]) s' (r.record p o) := by
  obtain ⟨hsome, hwritten, hmissing⟩ := step.outcome_cases
  have hlength : (extensionsIn registry (items ++ [.ok p])).length =
      r.summary.scanned + o.toList.length := by
    rw [extensionsIn_concat, List.length_append, h.scanned]
    cases hlookup : registry.lookupPath p <;> cases o <;> simp [hlookup] at hsome ⊢
  have hparts := h.parts
  have hviolations := h.violations
  constructor
  case renders => exact hc
  case cached =>
    rw [hext, h.cached, extensionsIn_concat, List.toFinset_append, Finset.union_comm]
    cases registry.lookupPath p <;> simp
  case scanned =>
    rw [hlength]
    rcases o with _ | (_ | _ | _) <;> rfl
  case parts =>
    rcases o with _ | (_ | _ | _) <;> simp only [Report.record, Summary.record] <;> omega
  case violations =>
    rcases o with _ | (_ | _ | _) <;>
      simp [Report.record, Summary.record, Outcome.isViolation] <;> omega
  case none_written =>
    intro hw
    cases o with
    | none => exact h.none_written hw
    | some o =>
      cases o with
      | written => exact absurd rfl (hwritten hw)
      | _ => exact h.none_written hw
  case none_missing =>
    intro hw
    cases o with
    | none => exact h.none_missing hw
    | some o =>
      cases o with
      | missing => exact absurd rfl (hmissing hw)
      | _ => exact h.none_missing hw

/-- The loop over more items, if it comes to their end, leaves the counts in agreement. -/
theorem Tallied.run (h : Tallied registry license write before s r)
    (hrun : checkItems registry write s r items = (.ok report, s')) :
    Tallied registry license write (before ++ items) s' report := by
  induction items generalizing s r before with
  | nil =>
    cases hrun
    rw [List.append_nil]
    exact { h with }
  | cons item items ih =>
    cases item with
    | error e => cases hrun
    | ok p =>
      obtain ⟨s'', hcache, hext, ⟨e, -, heq⟩ | ⟨o, step, heq⟩⟩ :=
        checkItems_cons h.renders write r p
      · rw [heq] at hrun
        cases hrun
      · rw [heq] at hrun
        rw [List.append_cons]
        exact ih (h.record step hcache hext) hrun

theorem record_recount (r : Report) (k : ℕ) (p : Path) (o : Option Outcome) :
    (r.recount k).record p o = (r.record p o).recount k := by
  rcases o with _ | (_ | _ | _) <;> rfl

/-- The loop counts the extensions at its end, whatever their number was before. -/
theorem checkItems_recount (registry : Registry) (write : Bool) (s : State) (r : Report) (k : ℕ)
    (items : Items) :
    checkItems registry write s (r.recount k) items = checkItems registry write s r items := by
  induction items generalizing s r with
  | nil => rfl
  | cons item items ih =>
    cases item with
    | error e => rfl
    | ok p =>
      rw [checkItems, checkItems]
      obtain ⟨result, s'⟩ := checkFile registry write s p
      cases result with
      | error e => rfl
      | ok o =>
        simp only [record_recount]
        exact ih s' (r.record p o)

/-- Where the loop over some items ends, it has counted the extensions in the cache, and the loop
over these items and more goes on. -/
theorem checkItems_resume (hc : HeaderCache.Renders registry license s.cache)
    (h : checkItems registry write s r first = (.ok report, s')) :
    report.summary.extensions = s'.cache.size ∧ ∀ later,
      checkItems registry write s r (first ++ later) =
        checkItems registry write s' report later := by
  rcases checkItems_append hc write r first with ⟨e, he⟩ | ⟨s'', r', -, -, hlater⟩
  · rw [h] at he
    cases he
  · have hend := hlater []
    rw [List.append_nil, h] at hend
    cases hend
    refine ⟨rfl, fun later => ?_⟩
    rw [hlater]
    exact (checkItems_recount registry write s' r' s'.cache.size later).symm

theorem verdict_eq_ok {summary : Summary} :
    report.verdict = .ok summary ↔ report.violations = [] ∧ report.summary = summary := by
  rw [Report.verdict, ← List.isEmpty_iff]
  cases report.violations.isEmpty <;> simp

theorem verdict_eq_noHeader {files : List Path} (h : report.verdict = .error (.noHeader files)) :
    report.violations = files := by
  rw [Report.verdict] at h
  split at h
  · cases h
  · exact ScanError.noHeader.inj (Except.error.inj h)

theorem Tallied.size (h : Tallied registry license write items s r) :
    s.cache.size = (extensionsIn registry items).toFinset.card := by
  rw [h.renders.size, h.cached]

/-- The loop comes to the end of the first items unless one of them fails. Then its counts agree
with these items, and it goes on with the others from there. So the counts in the log line of a scan
agree with each other and with the files it reports, and a scan that succeeds found headers only. -/
theorem scan_counts (registry : Registry) (license : License) (write : Bool) (fs : FileSystem)
    (items : Items) :
    let loop := checkItems registry write ⟨fs, .new license⟩ .empty
    (∀ k, (∀ j < k, ∀ e, ¬ FailsAt registry write license fs items j e) →
      ∃ report s, loop (items.take k) = (.ok report, s)) ∧
    (∀ k report s, loop (items.take k) = (.ok report, s) →
      Tallied registry license write (items.take k) s report ∧
      s.cache.size = (extensionsIn registry (items.take k)).toFinset.card ∧
      loop items = checkItems registry write s report (items.drop k)) ∧
    ∀ report, (scan registry write license fs items).1 = .ok report →
      (∃ c m w, report.summary.message =
          s!"Scanned {c + m + w} files: {c} compliant, {m} missing, {w} written" ∧
        ∀ files, report.verdict = .error (.noHeader files) → m + w = files.length) ∧
      ∀ summary, report.verdict = .ok summary → summary.missing = 0 ∧ summary.written = 0 ∧
        summary.compliant = summary.scanned ∧ summary.extensions ≤ summary.scanned := by
  intro loop
  have hstart := tallied_start registry license write fs
  refine ⟨fun k hnone => ?_, fun k report s hrun => ?_, fun report hout => ?_⟩
  · cases hrun : loop (items.take k) with
    | mk result s =>
      cases result with
      | ok report => exact ⟨report, s, rfl⟩
      | error e =>
        obtain ⟨j, hj, hfails⟩ := exists_failsAt_of_error (congrArg Prod.fst hrun)
        exact absurd hfails (hnone j hj e)
  · have htallied : Tallied registry license write (items.take k) s report := hstart.run hrun
    have hresume := (checkItems_resume hstart.renders hrun).2 (items.drop k)
    rw [List.take_append_drop] at hresume
    exact ⟨htallied, htallied.size, hresume⟩
  · have hrun : loop items = (.ok report, (loop items).2) := Prod.ext hout rfl
    have htallied : Tallied registry license write items (loop items).2 report := hstart.run hrun
    have hparts := htallied.parts
    have hviolations := htallied.violations
    refine ⟨⟨report.summary.compliant, report.summary.missing, report.summary.written, ?_,
      fun files hfiles => ?_⟩, fun summary hsummary => ?_⟩
    · rw [← hparts]
      rfl
    · rw [hviolations, verdict_eq_noHeader hfiles]
    · obtain ⟨hnone, rfl⟩ := verdict_eq_ok.mp hsummary
      rw [hnone, List.length_nil] at hviolations
      have hextensions : report.summary.extensions ≤ report.summary.scanned := by
        rw [(checkItems_resume hstart.renders hrun).1, htallied.size, htallied.scanned]
        exact List.toFinset_card_le _
      exact ⟨by omega, by omega, by omega, hextensions⟩

end

def repeated : Items := [.ok ⟨"/LICENSE"⟩, .ok ⟨"/a.py"⟩, .ok ⟨"/a.py"⟩, .ok ⟨"/b.py"⟩]

theorem scan_counts_repeated :
    let loop := checkItems .builtin true ⟨halfDone, .new ⟨"L"⟩⟩ .empty
    (∃ s, loop (repeated.take 3) = (.ok ⟨⟨2, 1, 0, 1, 1⟩, [⟨"/a.py"⟩]⟩, s) ∧ s.cache.size = 1 ∧
      loop repeated = checkItems .builtin true s ⟨⟨2, 1, 0, 1, 1⟩, [⟨"/a.py"⟩]⟩ [.ok ⟨"/b.py"⟩]) ∧
    ∃ report c m w, (scan .builtin true ⟨"L"⟩ halfDone repeated).1 = .ok report ∧
      report.verdict = .error (.noHeader [⟨"/a.py"⟩]) ∧ report.summary.message =
        s!"Scanned {c + m + w} files: {c} compliant, {m} missing, {w} written" ∧ m + w = 1 := by
  intro loop
  obtain ⟨-, hreached, hend⟩ := scan_counts .builtin ⟨"L"⟩ true halfDone repeated
  have hrun : loop (repeated.take 3) =
      (.ok ⟨⟨2, 1, 0, 1, 1⟩, [⟨"/a.py"⟩]⟩, (loop (repeated.take 3)).2) := rfl
  have hout : (scan .builtin true ⟨"L"⟩ halfDone repeated).1 =
      .ok ⟨⟨3, 2, 0, 1, 1⟩, [⟨"/a.py"⟩]⟩ := rfl
  have hcard : (extensionsIn .builtin (repeated.take 3)).toFinset.card = 1 := by decide +kernel
  obtain ⟨-, hsize, hrest⟩ := hreached 3 _ _ hrun
  obtain ⟨⟨c, m, w, hmessage, hcount⟩, -⟩ := hend _ hout
  exact ⟨⟨_, hrun, hsize.trans hcard, hrest⟩, _, c, m, w, hout, rfl, hmessage, hcount _ rfl⟩

end LicenseHeader.Scan
