import LicenseHeader.Proofs.Insertion
import LicenseHeader.Proofs.Verdict

/-! What a run may do to a file system, whatever comes of it. -/
namespace LicenseHeader.Header

theorem inserted_ne (content header : String) : inserted content header ≠ content := by
  intro h
  have hlen := congrArg (·.toList.length) h
  have hsplit := congrArg List.length (directive_append_body content.toList)
  simp only [toList_inserted, withHeader, List.length_append, List.length_cons] at hlen hsplit
  omega

end LicenseHeader.Header

namespace LicenseHeader.Scan
open Header (isAt offset insertAt? inserted)

/-- What may have become of a file system by putting headers into some files that lack them. -/
structure Altered (registry : Registry) (license : License) (files : List Path)
    (fs fs' : FileSystem) : Prop where
  shape : fs'.SameShape fs
  content : ∀ loc, fs'.root.content? loc = fs.root.content? loc ∨
    ∃ p ∈ files, ∃ header old, Lacking registry license fs p loc header old ∧
      fs'.root.content? loc = some (inserted old header).toUTF8

section
variable {registry : Registry} {license : License} {write : Bool} {o : Options} {p : Path}
  {fs fs' : FileSystem} {files : List Path} {loc : Location} {header old : String}

theorem scan_content_cases (registry : Registry) (license : License) (write : Bool)
    (apart : files.Pairwise (Apart fs)) (loc : Location) :
    let out := scan registry write license fs (files.map .ok)
    (out.2.root.content? loc = fs.root.content? loc ∧
      ((∃ report, out.1 = .ok report) → write = true → ∀ p ∈ files,
        lacks registry license fs p = true → ¬ fs.LeadsTo p loc)) ∨
    (write = true ∧ ∃ p ∈ files, ∃ header old, Lacking registry license fs p loc header old ∧
      out.2.root.content? loc = some (inserted old header).toUTF8) :=
  checkItems_content_cases (s := ⟨fs, .new license⟩) (HeaderCache.renders_new registry license)
    apart loc

theorem altered_scan (registry : Registry) (license : License) (write : Bool)
    (apart : files.Pairwise (Apart fs)) :
    Altered registry license files fs (scan registry write license fs (files.map .ok)).2 where
  shape := sameShape_checkItems (HeaderCache.renders_new registry license)
  content loc := (scan_content_cases registry license write apart loc).imp (·.1) (·.2)

theorem rulesAt_of_leadsTo {file : Path} {content : ByteArray} (leads : fs.LeadsTo file loc)
    (holds : fs.root.content? loc = some content) :
    rulesAt fs file = Ignore.rulesOf content := by
  rw [rulesAt, FileSystem.readBytes_eq_ok.mpr ⟨loc, leads, holds⟩]

/-- An ignore file has the rules it had, unless it leads to a file that lacked its header. -/
theorem Altered.rulesAt_cases (h : Altered registry license files fs fs') (file : Path) :
    rulesAt fs' file = rulesAt fs file ∨
    ∃ p ∈ files, ∃ loc header old, Lacking registry license fs p loc header old ∧
      fs.LeadsTo file loc ∧ fs'.root.content? loc = some (inserted old header).toUTF8 := by
  by_cases hread : ∃ loc content, fs.LeadsTo file loc ∧ fs.root.content? loc = some content
  · obtain ⟨loc, content, leads, holds⟩ := hread
    rcases h.content loc with hsame | ⟨p, hp, header, old, lacking, hnew⟩
    · refine .inl ?_
      rw [rulesAt_of_leadsTo leads holds,
        rulesAt_of_leadsTo ((leadsTo_congr h.shape.symm).mp leads) (hsame.trans holds)]
    · exact .inr ⟨p, hp, loc, header, old, lacking, leads, hnew⟩
  · -- a file that could not be read still cannot
    have hunread {fs'' : FileSystem} (hshape : fs''.SameShape fs) : rulesAt fs'' file = [] := by
      rw [rulesAt]
      cases hb : fs''.readBytes file with
      | error e => rfl
      | ok content =>
        obtain ⟨loc, leads, holds⟩ := FileSystem.readBytes_eq_ok.mp hb
        have hkind := (hshape.root loc).symm.trans (Node.kindAt?_of_content? holds)
        obtain ⟨old, hold⟩ := Node.exists_content?_iff.mpr hkind
        exact absurd ⟨loc, old, (leadsTo_congr hshape).mp leads, hold⟩ hread
    exact .inl ((hunread h.shape).trans (hunread (.refl fs)).symm)

end

end LicenseHeader.Scan
