import LicenseHeader.Proofs.Candidates
import LicenseHeader.Proofs.Check
import LicenseHeader.Scan.Run

/-! The loop over the items of a scan: its report, and the files it leaves, in terms of the files
it starts from. -/
namespace LicenseHeader.Scan

open Header (inserted)

section
variable {files : List Path} {f : Path → Option Outcome} {r : Report}

theorem violations_foldl_record (f : Path → Option Outcome) (files : List Path) (r : Report) :
    (files.foldl (fun r p => r.record p (f p)) r).violations =
      r.violations ++ files.filter fun p => (f p).any Outcome.isViolation := by
  induction files generalizing r with
  | nil => simp
  | cons p files ih =>
    rw [List.foldl_cons, ih, List.filter_cons]
    cases hp : f p with
    | none => simp [Report.record]
    | some o => cases o <;> simp [Report.record, Outcome.isViolation]

theorem summary_foldl_record (f : Path → Option Outcome) (files : List Path) (r : Report) :
    (files.foldl (fun r p => r.record p (f p)) r).summary =
      { scanned := r.summary.scanned + files.countP fun p => (f p).isSome
        compliant := r.summary.compliant + files.countP fun p => f p == some .compliant
        missing := r.summary.missing + files.countP fun p => f p == some .missing
        written := r.summary.written + files.countP fun p => f p == some .written
        extensions := r.summary.extensions } := by
  induction files generalizing r with
  | nil => rfl
  | cons p files ih =>
    rw [List.foldl_cons, ih]
    simp only [List.countP_cons]
    cases hp : f p with
    | none => simp [Report.record]
    | some o => cases o <;> simp +arith [Report.record, Summary.record]

theorem foldl_record_congr {g : Path → Option Outcome} (h : ∀ p ∈ files, f p = g p) :
    files.foldl (fun r p => r.record p (f p)) r = files.foldl (fun r p => r.record p (g p)) r := by
  induction files generalizing r with
  | nil => rfl
  | cons p files ih =>
    rw [List.forall_mem_cons] at h
    rw [List.foldl_cons, List.foldl_cons, h.1, ih h.2]

end

def extensionsOf (registry : Registry) (files : List Path) : Finset String :=
  (files.filterMap fun p => (registry.lookupPath p).map (·.1)).toFinset

theorem extensionsOf_cons (registry : Registry) (p : Path) (files : List Path) :
    extensionsOf registry (p :: files) =
      ((registry.lookupPath p).map (·.1)).toFinset ∪ extensionsOf registry files := by
  rw [extensionsOf, extensionsOf, List.filterMap_cons]
  cases registry.lookupPath p <;> simp

section
variable {registry : Registry} {license : License} {write : Bool} {fs fs' : FileSystem}
  {p q : Path} {files : List Path} {loc : Location} {s : State} {r report : Report}
  {result : Except ScanError (Option Outcome)}

/-- One turn of the loop: it ends with an error, or the rest follows from where it leads. -/
theorem checkItems_cons (hc : HeaderCache.Renders registry license s.cache) (write : Bool)
    (r : Report) (p : Path) :
    ∃ s', HeaderCache.Renders registry license s'.cache ∧
      s'.cache.extensions = ((registry.lookupPath p).map (·.1)).toFinset ∪ s.cache.extensions ∧
      ((∃ e, Step registry license write s.fs p (.error e) s'.fs ∧
        ∀ rest, checkItems registry write s r (.ok p :: rest) = (.error e, s')) ∨
      ∃ o, Step registry license write s.fs p (.ok o) s'.fs ∧
        ∀ rest, checkItems registry write s r (.ok p :: rest) =
          checkItems registry write s' (r.record p o) rest) := by
  obtain ⟨hstep, hcache, hext⟩ := checkFile_step hc write p
  refine ⟨(checkFile registry write s p).2, hcache, hext, ?_⟩
  simp only [checkItems]
  generalize checkFile registry write s p = checked at hstep
  obtain ⟨result, s'⟩ := checked
  cases result with
  | error e => exact .inl ⟨e, hstep, fun _ => rfl⟩
  | ok o => exact .inr ⟨o, hstep, fun _ => rfl⟩

/-- A check of one file has no effect on what another path reads. -/
theorem Step.readText_iff (h : Step registry license write fs p result fs')
    (apart : Apart fs p q) (content : String) :
    fs'.readText q = .ok content ↔ fs.readText q = .ok content := by
  rw [FileSystem.readText_eq_ok, FileSystem.readText_eq_ok]
  refine exists_congr fun loc => ?_
  rw [leadsTo_congr h.sameShape, and_congr_right_iff]
  intro hq
  rcases h.content_cases loc with ⟨heq, -⟩ | ⟨-, header, old, lacking, -⟩
  · rw [heq]
  · exact absurd hq (apart loc lacking.leads)

theorem Step.lacking_iff (h : Step registry license write fs p result fs') (apart : Apart fs p q)
    {header old : String} : Lacking registry license fs' q loc header old ↔
      Lacking registry license fs q loc header old := by
  have hleads : fs'.LeadsTo q loc ↔ fs.LeadsTo q loc := leadsTo_congr h.sameShape
  have hcontent (leads : fs.LeadsTo q loc) : fs'.root.content? loc = fs.root.content? loc := by
    rcases h.content_cases loc with ⟨heq, -⟩ | ⟨-, header', old', lacking, -⟩
    · exact heq
    · exact absurd leads (apart loc lacking.leads)
  constructor
  · intro lacking
    have leads := hleads.mp lacking.leads
    exact { lacking with leads, holds := (hcontent leads).symm.trans lacking.holds }
  · intro lacking
    exact { lacking with
      leads := hleads.mpr lacking.leads
      holds := (hcontent lacking.leads).trans lacking.holds }

theorem Step.legible_iff (h : Step registry license write fs p result fs')
    (apart : Apart fs p q) : Legible registry fs' q ↔ Legible registry fs q := by
  simp only [Legible, h.readText_iff apart]

theorem Step.lacks_eq (h : Step registry license write fs p result fs') (apart : Apart fs p q) :
    lacks registry license fs' q = lacks registry license fs q := by
  have hread := h.readText_iff apart
  rw [lacks, lacks]
  cases hq : fs.readText q with
  | ok content => rw [(hread content).mpr hq]
  | error e =>
    cases hq' : fs'.readText q with
    | ok content => cases hq.symm.trans ((hread content).mp hq')
    | error e' => cases headerFor? registry license q <;> rfl

theorem Step.outcome?_eq (h : Step registry license write fs p result fs')
    (apart : Apart fs p q) :
    outcome? registry license write fs' q = outcome? registry license write fs q := by
  rw [outcome?, outcome?, h.lacks_eq apart]

/-- The loop over files at different places succeeds exactly if all of them are legible at its
start, and then reports of each what it is at its start. -/
theorem checkItems_eq_ok (hc : HeaderCache.Renders registry license s.cache)
    (apart : files.Pairwise (Apart s.fs)) :
    (checkItems registry write s r (files.map .ok)).1 = .ok report ↔
      (∀ p ∈ files, Legible registry s.fs p) ∧
      let found := files.foldl (fun r p => r.record p (outcome? registry license write s.fs p)) r
      report = { found with summary := { found.summary with
        extensions := (extensionsOf registry files ∪ s.cache.extensions).card } } := by
  induction files generalizing s r with
  | nil =>
    simp [checkItems, hc.size, extensionsOf]
    exact eq_comm
  | cons p files ih =>
    obtain ⟨hp, apart⟩ := List.pairwise_cons.mp apart
    obtain ⟨s', hcache, hext, ⟨e, step, heq⟩ | ⟨o, step, heq⟩⟩ :=
      checkItems_cons hc write r p
    · rw [List.map_cons, heq]
      refine ⟨nofun, fun ⟨legible, _⟩ => ?_⟩
      obtain ⟨o, ho⟩ := step.exists_outcome (legible p List.mem_cons_self)
      cases ho
    · have apart' : files.Pairwise (Apart s'.fs) :=
        apart.imp (apart_congr step.sameShape.symm).mp
      obtain ⟨legible, ho⟩ := step.outcome
      have hfold := foldl_record_congr (r := r.record p o)
        fun q hq => step.outcome?_eq (hp q hq)
      have hcard : extensionsOf registry files ∪ s'.cache.extensions =
          extensionsOf registry (p :: files) ∪ s.cache.extensions := by
        rw [hext, extensionsOf_cons, ← Finset.union_assoc,
          Finset.union_comm (extensionsOf registry files)]
      rw [List.map_cons, heq, ih hcache apart', List.forall_mem_cons, hfold, hcard, ho]
      have hrest : (∀ q ∈ files, Legible registry s'.fs q) ↔
          ∀ q ∈ files, Legible registry s.fs q :=
        forall₂_congr fun q hq => step.legible_iff (hp q hq)
      simp only [hrest, legible, true_and, List.foldl_cons]

theorem sameShape_checkItems (hc : HeaderCache.Renders registry license s.cache) :
    (checkItems registry write s r (files.map .ok)).2.fs.SameShape s.fs := by
  induction files generalizing s r with
  | nil => exact .refl s.fs
  | cons p files ih =>
    obtain ⟨s', hcache, -, ⟨e, step, heq⟩ | ⟨o, step, heq⟩⟩ :=
      checkItems_cons hc write r p
    · rw [List.map_cons, heq]
      exact step.sameShape
    · rw [List.map_cons, heq]
      exact (ih hcache).trans step.sameShape

/-- Without files to write, or without the order to, the loop leaves the file system as it is. -/
theorem checkItems_fs_eq (hc : HeaderCache.Renders registry license s.cache)
    (hstay : write = true → ∀ p ∈ files, lacks registry license s.fs p = false) :
    (checkItems registry write s r (files.map .ok)).2.fs = s.fs := by
  induction files generalizing s r with
  | nil => rfl
  | cons p files ih =>
    have hp : write = true → lacks registry license s.fs p = false :=
      fun hw => hstay hw p List.mem_cons_self
    obtain ⟨s', hcache, -, ⟨e, step, heq⟩ | ⟨o, step, heq⟩⟩ :=
      checkItems_cons hc write r p
    · rw [List.map_cons, heq]
      exact step.eq_of_not hp
    · have hfs := step.eq_of_not hp
      rw [List.map_cons, heq, ← hfs]
      exact ih hcache fun hw q hq => hfs ▸ hstay hw q (List.mem_cons_of_mem p hq)

/-- What the loop over files at different places does to the content of any file. Each is
written at most once, and whatever is to be written is, unless the loop ends before. -/
theorem checkItems_content_cases (hc : HeaderCache.Renders registry license s.cache)
    (apart : files.Pairwise (Apart s.fs)) (loc : Location) :
    let out := checkItems registry write s r (files.map .ok)
    (out.2.fs.root.content? loc = s.fs.root.content? loc ∧
      ((∃ report, out.1 = .ok report) → write = true → ∀ p ∈ files,
        lacks registry license s.fs p = true → ¬ s.fs.LeadsTo p loc)) ∨
    (write = true ∧ ∃ p ∈ files, ∃ header old, Lacking registry license s.fs p loc header old ∧
      out.2.fs.root.content? loc = some (inserted old header).toUTF8) := by
  induction files generalizing s r with
  | nil => exact .inl ⟨rfl, by simp⟩
  | cons p files ih =>
    obtain ⟨hp, apart⟩ := List.pairwise_cons.mp apart
    obtain ⟨s', hcache, -, ⟨e, step, heq⟩ | ⟨o, step, heq⟩⟩ :=
      checkItems_cons hc write r p
    · rw [List.map_cons, heq]
      rcases step.content_cases loc with ⟨hsame, -⟩ | ⟨hw, header, old, lacking, hnew⟩
      · exact .inl ⟨hsame, nofun⟩
      · exact .inr ⟨hw, p, List.mem_cons_self, header, old, lacking, hnew⟩
    · have apart' : files.Pairwise (Apart s'.fs) :=
        apart.imp (apart_congr step.sameShape.symm).mp
      rw [List.map_cons, heq]
      rcases ih (r := r.record p o) hcache apart' with ⟨hrest, hdone⟩ | hwritten
      · rcases step.content_cases loc with ⟨hsame, hnot⟩ | ⟨hw, header, old, lacking, hnew⟩
        · refine .inl ⟨hrest.trans hsame, fun hok hw => List.forall_mem_cons.mpr
            ⟨hnot hw, fun q hq hlacks => ?_⟩⟩
          rw [← leadsTo_congr step.sameShape]
          exact hdone hok hw q hq ((step.lacks_eq (hp q hq)).trans hlacks)
        · exact .inr ⟨hw, p, List.mem_cons_self, header, old, lacking, hrest.trans hnew⟩
      · obtain ⟨hw, q, hq, header, old, lacking, hnew⟩ := hwritten
        -- what the rest writes is not where the first file is
        have lacking' := (step.lacking_iff (hp q hq)).mp lacking
        exact .inr ⟨hw, q, List.mem_cons_of_mem p hq, header, old, lacking', hnew⟩

end
end LicenseHeader.Scan
