import LicenseHeader.Proofs.Verdict
import Mathlib.Tactic.IntervalCases

/-! What ends a scan early: the first item that is a failure itself, or names a file that has to be
read and cannot be. -/
namespace LicenseHeader.Scan

/-- Why an item ends a scan, the files being as they are when it comes to it. -/
inductive Fails (registry : Registry) (fs : FileSystem) : Except ScanError Path → ScanError → Prop
  | given (e : ScanError) : Fails registry fs (.error e) e
  | unread {p : Path} {cause : FileError} (registered : (registry.lookupPath p).isSome)
    (unread : fs.readText p = .error cause) : Fails registry fs (.ok p) (.file p cause)

/-- Whether an item ends a scan with an error, the files being as the items before it leave
them. -/
def FailsAt (registry : Registry) (write : Bool) (license : License) (fs : FileSystem)
    (items : Items) (k : Nat) (e : ScanError) : Prop :=
  ∃ item, items[k]? = some item ∧
    Fails registry (scan registry write license fs (items.take k)).2 item e

/-- Whether a scan looks at an item. It passes over paths without a registered extension. -/
def isLookedAt (registry : Registry) : Except ScanError Path → Bool
  | .error _ => true
  | .ok p => (registry.lookupPath p).isSome

section
variable {registry : Registry} {license : License} {write : Bool} {fs fs' : FileSystem}
  {p : Path} {s : State} {r : Report} {e : ScanError} {item : Except ScanError Path}
  {items : Items} {result : Except ScanError (Option Outcome)}

theorem not_fails_of_passed (h : registry.lookupPath p = none) : ¬ Fails registry fs (.ok p) e := by
  rintro (_ | ⟨registered, -⟩)
  simp [h] at registered

theorem not_fails_of_read {content : String} (h : fs.readText p = .ok content) :
    ¬ Fails registry fs (.ok p) e := by
  rintro (_ | ⟨-, unread⟩)
  cases h.symm.trans unread

/-- A check fails exactly for a file that has to be read and cannot be. -/
theorem Step.error_iff (h : Step registry license write fs p result fs') :
    Fails registry fs (.ok p) e ↔ result = .error e := by
  cases h with
  | passed asked =>
    rw [headerFor?, Option.map_eq_none_iff] at asked
    exact ⟨fun h => absurd h (not_fails_of_passed asked), fun he => by cases he⟩
  | unread asked unread =>
    constructor
    · rintro (_ | ⟨-, unread'⟩)
      cases unread.symm.trans unread'
      rfl
    · intro he
      cases he
      rw [headerFor?, Option.map_eq_some_iff] at asked
      obtain ⟨entry, hentry, -⟩ := asked
      exact .unread (by simp [hentry]) unread
  | compliant asked read found =>
    exact ⟨fun h => absurd h (not_fails_of_read read), fun he => by cases he⟩
  | missing lacking hw =>
    exact ⟨fun h => absurd h (not_fails_of_read lacking.read), fun he => by cases he⟩
  | written lacking hw =>
    exact ⟨fun h => absurd h (not_fails_of_read lacking.read), fun he => by cases he⟩

theorem Step.fs_of_error (h : Step registry license write fs p (.error e) fs') : fs' = fs := by
  cases h
  rfl

/-- The loop ends at an item that fails, whatever comes after it. -/
theorem checkItems_of_fails (hc : HeaderCache.Renders registry license s.cache) (write : Bool)
    (r : Report) (h : Fails registry s.fs item e) :
    ∃ s', s'.fs = s.fs ∧
      ∀ later, checkItems registry write s r (item :: later) = (.error e, s') := by
  cases item with
  | error e' =>
    cases h
    exact ⟨s, rfl, fun _ => rfl⟩
  | ok p =>
    obtain ⟨s', -, -, ⟨e', step, heq⟩ | ⟨o, step, -⟩⟩ := checkItems_cons hc write r p
    · obtain rfl := Except.error.inj (step.error_iff.mp h)
      exact ⟨s', step.fs_of_error, heq⟩
    · cases step.error_iff.mp h

theorem checkItems_append (hc : HeaderCache.Renders registry license s.cache) (write : Bool)
    (r : Report) (first : Items) :
    (∃ e, (checkItems registry write s r first).1 = .error e) ∨
    ∃ s' r', HeaderCache.Renders registry license s'.cache ∧
      (checkItems registry write s r first).2 = s' ∧
      ∀ later, checkItems registry write s r (first ++ later) =
        checkItems registry write s' r' later := by
  induction first generalizing s r with
  | nil => exact .inr ⟨s, r, hc, rfl, fun _ => rfl⟩
  | cons item first ih =>
    cases item with
    | error e => exact .inl ⟨e, rfl⟩
    | ok p =>
      obtain ⟨s', hcache, -, ⟨e, -, heq⟩ | ⟨o, -, heq⟩⟩ := checkItems_cons hc write r p
      · exact .inl ⟨e, by rw [heq]⟩
      · simp only [List.cons_append, heq]
        exact ih hcache (r.record p o)

theorem exists_fails_of_error (hc : HeaderCache.Renders registry license s.cache)
    (h : (checkItems registry write s r items).1 = .error e) :
    ∃ k item, items[k]? = some item ∧
      Fails registry (checkItems registry write s r (items.take k)).2.fs item e := by
  induction items generalizing s r with
  | nil => cases h
  | cons item items ih =>
    cases item with
    | error e' =>
      cases h
      exact ⟨0, _, rfl, .given e⟩
    | ok p =>
      obtain ⟨s', hcache, -, ⟨e', step, heq⟩ | ⟨o, step, heq⟩⟩ := checkItems_cons hc write r p
      · rw [heq] at h
        cases h
        exact ⟨0, _, rfl, step.error_iff.mpr rfl⟩
      · rw [heq] at h
        obtain ⟨k, item, hitem, hfails⟩ := ih hcache h
        exact ⟨k + 1, item, hitem, by rwa [List.take_succ_cons, heq]⟩

theorem exists_failsAt_of_error {k : Nat}
    (h : (scan registry write license fs (items.take k)).1 = .error e) :
    ∃ j < k, FailsAt registry write license fs items j e := by
  obtain ⟨j, item, hitem, hfails⟩ := exists_fails_of_error (s := ⟨fs, .new license⟩)
    (HeaderCache.renders_new registry license) h
  have hj : j < k := by
    have hlt := (List.getElem?_eq_some_iff.mp hitem).1
    rw [List.length_take] at hlt
    omega
  rw [List.getElem?_take_of_lt hj] at hitem
  rw [List.take_take, Nat.min_eq_left hj.le] at hfails
  exact ⟨j, hj, item, hitem, hfails⟩

theorem checkItems_filter (registry : Registry) (write : Bool) (s : State) (r : Report)
    (items : Items) :
    checkItems registry write s r (items.filter (isLookedAt registry)) =
      checkItems registry write s r items := by
  induction items generalizing s r with
  | nil => rfl
  | cons item items ih =>
    cases item with
    | error e => rfl
    | ok p =>
      by_cases hp : isLookedAt registry (.ok p) = true
      · rw [List.filter_cons_of_pos hp, checkItems, checkItems]
        obtain ⟨result, s'⟩ := checkFile registry write s p
        cases result with
        | error e => rfl
        | ok o => exact ih s' (r.record p o)
      · have hnone : registry.lookupPath p = none := by simpa [isLookedAt] using hp
        have hpassed : checkFile registry write s p = (.ok none, s) := by rw [checkFile, hnone]
        rw [List.filter_cons_of_neg hp, checkItems, hpassed]
        exact ih s r

/-- A scan comes as far as the first item that fails, and no further. -/
theorem scan_of_first {k : Nat} (hk : FailsAt registry write license fs items k e)
    (hfirst : ∀ j < k, ∀ e', ¬ FailsAt registry write license fs items j e') {others : Items}
    (hothers : others.take (k + 1) = items.take (k + 1)) :
    scan registry write license fs others =
      (.error e, (scan registry write license fs (items.take k)).2) := by
  have hstart := HeaderCache.renders_new registry license
  obtain ⟨item, hitem, hfails⟩ := hk
  rcases checkItems_append (s := ⟨fs, .new license⟩) hstart write .empty (items.take k) with
    ⟨e', herr⟩ | ⟨s, r, hcache, hleft, hlater⟩
  · -- an item before would have failed
    obtain ⟨j, hj, hfails'⟩ := exists_failsAt_of_error herr
    exact absurd hfails' (hfirst j hj e')
  · have hfs : (scan registry write license fs (items.take k)).2 = s.fs := congrArg State.fs hleft
    have hfails' : Fails registry s.fs item e := hfs ▸ hfails
    obtain ⟨s', hfs', hend⟩ := checkItems_of_fails hcache write r hfails'
    have hsplit : others = items.take k ++ item :: others.drop (k + 1) := by
      have htake : others.take (k + 1) = items.take k ++ [item] := by
        rw [hothers, List.take_add_one, hitem, Option.toList_some]
      rw [List.append_cons, ← htake, List.take_append_drop]
    have hrun : checkItems registry write ⟨fs, .new license⟩ .empty others = (.error e, s') := by
      rw [hsplit, hlater, hend]
    rw [hfs, ← hfs', scan, hrun]

/-- If no item fails, then nothing but missing headers is reported. -/
theorem exists_noHeader_of_error (hnone : ∀ k e, ¬ FailsAt registry write license fs items k e)
    (h : (scan registry write license fs items).1.bind Report.verdict = .error e) :
    ∃ files, e = .noHeader files := by
  cases hout : (scan registry write license fs items).1 with
  | error e' =>
    obtain ⟨k, item, hitem, hfails⟩ := exists_fails_of_error (s := ⟨fs, .new license⟩)
      (HeaderCache.renders_new registry license) hout
    exact absurd ⟨item, hitem, hfails⟩ (hnone k e')
  | ok report =>
    simp only [hout, Except.bind, Report.verdict] at h
    split at h
    · cases h
    · exact ⟨report.violations, (Except.error.inj h).symm⟩

end

/-- A scan ends at the first item that fails when its turn comes, with the error of that item and
with the files as the items before it leave them, whatever comes after. If no item fails, then
nothing but missing headers is reported. Paths without a registered extension change neither. -/
theorem scan_first_failure (registry : Registry) (write : Bool) (license : License)
    (fs : FileSystem) (items : Items) :
    let result := fun items => (scan registry write license fs items).1.bind Report.verdict
    let left := fun items => (scan registry write license fs items).2
    let fails := FailsAt registry write license fs items
    (∀ k e, fails k e → (∀ j < k, ∀ e', ¬ fails j e') →
      (∀ files, e = .noHeader files → items[k]? = some (.error e)) ∧
      ∀ others : Items, others.take (k + 1) = items.take (k + 1) →
        result others = .error e ∧ left others = left (items.take k)) ∧
    ((∀ k e, ¬ fails k e) → ∀ e, result items = .error e → ∃ files, e = .noHeader files) ∧
    result (items.filter (isLookedAt registry)) = result items ∧
    left (items.filter (isLookedAt registry)) = left items := by
  intro result left fails
  refine ⟨fun k e hk hfirst => ⟨fun files he => ?_, fun others hothers => ?_⟩,
    fun hnone e => exists_noHeader_of_error hnone, ?_, ?_⟩
  · obtain ⟨item, hitem, hfails⟩ := hk
    cases hfails with
    | given => exact hitem
    | unread registered unread => cases he
  · have hscan := scan_of_first hk hfirst hothers
    constructor
    · simp only [result, hscan]
      rfl
    · simp only [left, hscan]
  · simp only [result, scan, checkItems_filter]
  · simp only [left, scan, checkItems_filter]

def brokenOff : Items :=
  [.ok ⟨"/LICENSE"⟩, .ok ⟨"/a.py"⟩, .ok ⟨"/a.py"⟩, .ok ⟨"/gone.py"⟩, .error (.noHeader []),
    .ok ⟨"/b.py"⟩]

theorem scan_first_failure_brokenOff :
    FailsAt .builtin true ⟨"L"⟩ halfDone brokenOff 3 (.file ⟨"/gone.py"⟩ .notFound) ∧
    (scan .builtin true ⟨"L"⟩ halfDone brokenOff).1.bind Report.verdict =
      .error (.file ⟨"/gone.py"⟩ .notFound) ∧
    (scan .builtin true ⟨"L"⟩ halfDone brokenOff).2.root.content? ["a.py"] =
      some "# L\nx".toUTF8 ∧
    ∀ e, (scan .builtin true ⟨"L"⟩ halfDone (brokenOff.take 3)).1.bind Report.verdict = .error e →
      ∃ files, e = .noHeader files := by
  have hpassed : Registry.builtin.lookupPath ⟨"/LICENSE"⟩ = none := by
    rw [Registry.lookupPath_builtin]
    decide
  have hread : (scan .builtin true ⟨"L"⟩ halfDone (brokenOff.take 1)).2.readText ⟨"/a.py"⟩ =
      .ok "x" := by decide +kernel
  have hread' : (scan .builtin true ⟨"L"⟩ halfDone (brokenOff.take 2)).2.readText ⟨"/a.py"⟩ =
      .ok "# L\nx" := by decide +kernel
  have hcontent : (scan .builtin true ⟨"L"⟩ halfDone (brokenOff.take 3)).2.root.content? ["a.py"] =
      some "# L\nx".toUTF8 := by decide +kernel
  have hfails : FailsAt .builtin true ⟨"L"⟩ halfDone brokenOff 3
      (.file ⟨"/gone.py"⟩ .notFound) := ⟨_, rfl, .unread (by decide +kernel) (by decide +kernel)⟩
  have hfirst : ∀ j < 3, ∀ e, ¬ FailsAt .builtin true ⟨"L"⟩ halfDone brokenOff j e := by
    rintro j hj e ⟨item, hitem, hfails⟩
    interval_cases j
    · cases hitem
      exact not_fails_of_passed hpassed hfails
    · cases hitem
      exact not_fails_of_read hread hfails
    · cases hitem
      exact not_fails_of_read hread' hfails
  obtain ⟨hend, -⟩ := scan_first_failure .builtin true ⟨"L"⟩ halfDone brokenOff
  obtain ⟨hresult, hleft⟩ := (hend 3 _ hfails hfirst).2 brokenOff rfl
  obtain ⟨-, hwhole, -⟩ := scan_first_failure .builtin true ⟨"L"⟩ halfDone (brokenOff.take 3)
  have hwritten := (congrArg (·.root.content? ["a.py"]) hleft).trans hcontent
  refine ⟨hfails, hresult, hwritten, hwhole fun k e hk => ?_⟩
  obtain ⟨item, hitem, hk⟩ := hk
  have hlt : k < 3 := (List.getElem?_eq_some_iff.mp hitem).1
  rw [List.getElem?_take_of_lt hlt] at hitem
  rw [List.take_take, Nat.min_eq_left hlt.le] at hk
  exact hfirst k hlt e ⟨item, hitem, hk⟩

end LicenseHeader.Scan
