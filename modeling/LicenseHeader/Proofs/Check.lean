import LicenseHeader.Proofs.Cache
import LicenseHeader.Proofs.Placement
import LicenseHeader.Proofs.Registry
import LicenseHeader.Proofs.Resolution
import LicenseHeader.Scan.Run
import Mathlib.Data.Finset.Option

/-! What checking one file comes to, said without the cache. -/
namespace LicenseHeader.Scan

open Header (isAt offset inserted)

def headerFor? (registry : Registry) (license : License) (p : Path) : Option String :=
  (registry.lookupPath p).map fun e => e.2.header license.text

/-- Whether the file at a path can be read, if its extension asks for a header. -/
def Legible (registry : Registry) (fs : FileSystem) (p : Path) : Prop :=
  (registry.lookupPath p).isSome → ∃ content, fs.readText p = .ok content

/-- Whether the file at a path is without the header that its extension asks for. -/
def lacks (registry : Registry) (license : License) (fs : FileSystem) (p : Path) : Bool :=
  match headerFor? registry license p, fs.readText p with
  | some header, .ok content => !isAt content (offset content) header
  | _, _ => false

def outcome? (registry : Registry) (license : License) (write : Bool) (fs : FileSystem)
    (p : Path) : Option Outcome :=
  (headerFor? registry license p).map fun _ =>
    if lacks registry license fs p then if write then .written else .missing else .compliant

/-- A file that lacks its header, with what it holds and where it is. -/
structure Lacking (registry : Registry) (license : License) (fs : FileSystem) (p : Path)
    (loc : Location) (header old : String) : Prop where
  asked : headerFor? registry license p = some header
  leads : fs.LeadsTo p loc
  holds : fs.root.content? loc = some old.toUTF8
  missing : isAt old (offset old) header = false

/-- What checking a file can come to: the result, and the file system it leaves. -/
inductive Step (registry : Registry) (license : License) (write : Bool) (fs : FileSystem)
    (p : Path) : Except ScanError (Option Outcome) → FileSystem → Prop
  | passed (asked : headerFor? registry license p = none) :
    Step registry license write fs p (.ok none) fs
  | unread {header : String} {e : FileError} (asked : headerFor? registry license p = some header)
    (unread : fs.readText p = .error e) : Step registry license write fs p (.error (.file p e)) fs
  | compliant {header content : String} (asked : headerFor? registry license p = some header)
    (read : fs.readText p = .ok content) (found : isAt content (offset content) header = true) :
    Step registry license write fs p (.ok (some .compliant)) fs
  | missing {loc : Location} {header old : String}
    (lacking : Lacking registry license fs p loc header old) (hw : write = false) :
    Step registry license write fs p (.ok (some .missing)) fs
  | written {loc : Location} {header old : String}
    (lacking : Lacking registry license fs p loc header old) (hw : write = true) :
    Step registry license write fs p (.ok (some .written)) (fs.putText loc (inserted old header))

theorem headerFor?_builtin (license : License) (p : Path) : headerFor? .builtin license p =
    (p.extension?.bind Style.builtin?).map (·.header license.text) := by
  rw [headerFor?, Registry.lookupPath_builtin, Option.map_bind, Option.map_bind]
  simp only [Function.comp_def, Option.map_map]

section
variable {registry : Registry} {license : License} {write : Bool} {fs fs' : FileSystem} {p : Path}
  {loc : Location} {header old content : String} {result : Except ScanError (Option Outcome)}

theorem Lacking.read (h : Lacking registry license fs p loc header old) :
    fs.readText p = .ok old :=
  FileSystem.readText_eq_ok.mpr ⟨loc, h.leads, h.holds⟩

theorem Lacking.lacks (h : Lacking registry license fs p loc header old) :
    lacks registry license fs p = true := by
  rw [Scan.lacks, h.asked, h.read]
  simp [h.missing]

private theorem checkHeader_step (asked : headerFor? registry license p = some header)
    {result : Except FileError (Outcome × FileSystem)}
    (h : checkHeader write fs p header = result) :
    match result with
    | .error e => Step registry license write fs p (.error (.file p e)) fs
    | .ok (outcome, fs') => Step registry license write fs p (.ok (some outcome)) fs' := by
  rw [checkHeader] at h
  cases hread : fs.readText p with
  | error e =>
    rw [hread] at h
    subst h
    exact .unread asked hread
  | ok content =>
    simp only [hread, bind, Except.bind] at h
    by_cases hfound : isAt content (offset content) header = true
    · rw [Header.round_of_found ((Header.isAt_offset content header).mp hfound)] at h
      subst h
      exact .compliant asked hread hfound
    · obtain ⟨loc, leads, holds⟩ := FileSystem.readText_eq_ok.mp hread
      have lacking : Lacking registry license fs p loc header content :=
        ⟨asked, leads, holds, by simpa using hfound⟩
      rw [Header.round_of_missing (mt (Header.isAt_offset content header).mpr hfound)] at h
      cases write with
      | false =>
        subst h
        exact .missing lacking rfl
      | true =>
        rw [FileSystem.writeText_of_leadsTo leads holds] at h
        subst h
        exact .written lacking rfl

/-- A cache that renders the registry has no part in what a check comes to. -/
theorem checkFile_step {s : State} (hc : HeaderCache.Renders registry license s.cache)
    (write : Bool) (p : Path) :
    Step registry license write s.fs p (checkFile registry write s p).1
        (checkFile registry write s p).2.fs ∧
      HeaderCache.Renders registry license (checkFile registry write s p).2.cache ∧
      (checkFile registry write s p).2.cache.extensions =
        ((registry.lookupPath p).map (·.1)).toFinset ∪ s.cache.extensions := by
  rw [checkFile]
  cases hlookup : registry.lookupPath p with
  | none => exact ⟨.passed (by rw [headerFor?, hlookup]; rfl), hc, by simp⟩
  | some e =>
    obtain ⟨extension, style⟩ := e
    obtain ⟨hheader, hcache⟩ := hc.get (Registry.lookupPath_eq_some.mp hlookup).2
    have asked : headerFor? registry license p = some (s.cache.get extension style).1 := by
      rw [headerFor?, hlookup, hheader]
      rfl
    have hext : (s.cache.get extension style).2.extensions =
        ((some (extension, style)).map (·.1)).toFinset ∪ s.cache.extensions := by
      rw [HeaderCache.extensions_get, Option.map_some, Option.toFinset_some,
        Finset.singleton_union]
    simp only
    cases hcheck : checkHeader write s.fs p (s.cache.get extension style).1 with
    | error e => exact ⟨checkHeader_step asked hcheck, hcache, hext⟩
    | ok checked => exact ⟨checkHeader_step asked hcheck, hcache, hext⟩

theorem Step.outcome {o : Option Outcome}
    (h : Step registry license write fs p (.ok o) fs') :
    Legible registry fs p ∧ o = outcome? registry license write fs p := by
  have legible {content : String} (read : fs.readText p = .ok content) :
      Legible registry fs p := fun _ => ⟨content, read⟩
  cases h with
  | passed asked =>
    refine ⟨fun hsome => ?_, by rw [outcome?, asked]; rfl⟩
    rw [headerFor?, Option.map_eq_none_iff] at asked
    simp [asked] at hsome
  | compliant asked read found =>
    refine ⟨legible read, ?_⟩
    have hlacks : lacks registry license fs p = false := by simp [lacks, asked, read, found]
    rw [outcome?, asked, Option.map_some, hlacks]
    rfl
  | missing lacking hw =>
    refine ⟨legible lacking.read, ?_⟩
    rw [outcome?, lacking.asked, Option.map_some, lacking.lacks, hw]
    rfl
  | written lacking hw =>
    refine ⟨legible lacking.read, ?_⟩
    rw [outcome?, lacking.asked, Option.map_some, lacking.lacks, hw]
    rfl

theorem Step.exists_outcome (h : Step registry license write fs p result fs')
    (legible : Legible registry fs p) : ∃ o, result = .ok o := by
  cases h with
  | unread asked unread =>
    obtain ⟨e, he, -⟩ := Option.map_eq_some_iff.mp asked
    obtain ⟨content, read⟩ := legible (by simp [he])
    cases unread.symm.trans read
  | _ => exact ⟨_, rfl⟩

theorem Step.sameShape (h : Step registry license write fs p result fs') : fs'.SameShape fs := by
  cases h with
  | written lacking => exact FileSystem.sameShape_putText lacking.holds _
  | _ => exact .refl fs

/-- Only a file that lacks its header is changed, and only to write. -/
theorem Step.eq_of_not (h : Step registry license write fs p result fs')
    (hstay : write = true → lacks registry license fs p = false) : fs' = fs := by
  cases h with
  | written lacking hw => cases lacking.lacks.symm.trans (hstay hw)
  | _ => rfl

/-- What a check does to the file system: nothing, or the insertion of the header that a file
lacks. -/
theorem Step.fs_cases (h : Step registry license write fs p result fs') :
    (fs' = fs ∧ (write = true → lacks registry license fs p = false)) ∨
    (write = true ∧ ∃ loc header old, Lacking registry license fs p loc header old ∧
      fs' = fs.putText loc (inserted old header)) := by
  by_cases hstay : write = true → lacks registry license fs p = false
  · exact .inl ⟨h.eq_of_not hstay, hstay⟩
  · cases h with
    | written lacking hw => exact .inr ⟨hw, _, _, _, lacking, rfl⟩
    | missing lacking hw => simp [hw] at hstay
    | passed asked => simp [lacks, asked] at hstay
    | unread asked unread => simp [lacks, asked, unread] at hstay
    | compliant asked read found => simp [lacks, asked, read, found] at hstay

theorem Step.content_cases (h : Step registry license write fs p result fs') (loc : Location) :
    (fs'.root.content? loc = fs.root.content? loc ∧
      (write = true → lacks registry license fs p = true → ¬ fs.LeadsTo p loc)) ∨
    (write = true ∧ ∃ header old, Lacking registry license fs p loc header old ∧
      fs'.root.content? loc = some (inserted old header).toUTF8) := by
  rcases h.fs_cases with ⟨rfl, hstay⟩ | ⟨hw, loc', header, old, lacking, rfl⟩
  · exact .inl ⟨rfl, fun hw hlacks => by cases hlacks.symm.trans (hstay hw)⟩
  · rw [FileSystem.content?_putText lacking.holds]
    by_cases hloc : loc = loc'
    · subst loc
      exact .inr ⟨hw, header, old, lacking, by rw [if_pos rfl]⟩
    · refine .inl ⟨by rw [if_neg hloc], fun _ _ hleads => hloc ?_⟩
      cases hleads.symm.trans lacking.leads
      rfl

end
end LicenseHeader.Scan
