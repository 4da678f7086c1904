import LicenseHeader.Proofs.Entered
import LicenseHeader.Proofs.Frame
import LicenseHeader.Proofs.Headers
import LicenseHeader.Proofs.Patterns

/-! A second run after one that wrote headers: what the first one changed that the second one
depends on. -/
namespace LicenseHeader.Scan

open Header (StartsDirective body inserted)
open Ignore (BothStricter Stricter)
open Text (byteOrderMark)

/-- What a run that wrote all the headers it missed has made of a file system. -/
structure Stamped (registry : Registry) (license : License) (files : List Path)
    (fs fs' : FileSystem) : Prop where
  shape : fs'.SameShape fs
  content : ∀ loc, (fs'.root.content? loc = fs.root.content? loc ∧
      ∀ p ∈ files, lacks registry license fs p = true → ¬ fs.LeadsTo p loc) ∨
    ∃ p ∈ files, ∃ header old, Lacking registry license fs p loc header old ∧
      fs'.root.content? loc = some (inserted old header).toUTF8

/-- A registry whose headers start no directive and no marked text, and have no line that is a
rule to keep a file. -/
def PlainHeaders (registry : Registry) (license : License) : Prop :=
  ∀ p header, headerFor? registry license p = some header →
    ¬ StartsDirective header.toList ∧ header.toList.head? ≠ some byteOrderMark ∧
      ∀ line ∈ header.toList.splitOn '\n', line.head? ≠ some '!'

/-- No file is a directive line without newline and nothing else. -/
def NoLoneDirective (fs : FileSystem) (files : List Path) : Prop :=
  ∀ p ∈ files, ∀ content, fs.readText p = .ok content →
    StartsDirective content.toList → '\n' ∈ content.toList

section
variable {registry : Registry} {license : License} {fs fs' : FileSystem} {p top : Path}
  {files files' : List Path} {globs : List (List Glob.Token)}

theorem plainHeaders_builtin (license : License) : PlainHeaders .builtin license := by
  intro p header asked
  obtain ⟨⟨extension, style⟩, hlookup, rfl⟩ := Option.map_eq_some_iff.mp asked
  have hmem := Registry.mem_builtinTable (Registry.lookupPath_eq_some.mp hlookup).2
  exact Style.header_of_plain (Style.plain_builtinTable _ hmem) license.text

private theorem found_after_writing (plain : PlainHeaders registry license)
    (whole : NoLoneDirective fs files) (hp : p ∈ files) {loc : Location} {header old : String}
    (lacking : Lacking registry license fs p loc header old) :
    header.toList <+: body (inserted old header).toList := by
  rw [Header.toList_inserted]
  by_cases hd : StartsDirective old.toList
  · exact Header.found_of_line hd (whole p hp old lacking.read hd) header.toList
  · exact Header.found_of_not hd (plain p header lacking.asked).1

/-- After all missing headers were written, none is missing. -/
theorem Stamped.not_lacks (stamped : Stamped registry license files fs fs')
    (plain : PlainHeaders registry license) (whole : NoLoneDirective fs files)
    (apart : files.Pairwise (Apart fs)) (hp : p ∈ files) (legible : Legible registry fs p) :
    Legible registry fs' p ∧ lacks registry license fs' p = false := by
  cases hasked : headerFor? registry license p with
  | none =>
    refine ⟨fun hsome => ?_, by simp [lacks, hasked]⟩
    rw [headerFor?, Option.map_eq_none_iff] at hasked
    simp [hasked] at hsome
  | some header =>
    obtain ⟨e, he, -⟩ := Option.map_eq_some_iff.mp hasked
    obtain ⟨content, read⟩ := legible (by simp [he])
    obtain ⟨loc, leads, holds⟩ := FileSystem.readText_eq_ok.mp read
    have leads' := (leadsTo_congr stamped.shape.symm).mp leads
    -- whatever is there now, the header is found in it
    obtain ⟨content', holds', hfound⟩ : ∃ content' : String, fs'.root.content? loc =
        some content'.toUTF8 ∧ header.toList <+: body content'.toList := by
      rcases stamped.content loc with ⟨hsame, hdone⟩ | ⟨q, hq, header', old, lacking, hnew⟩
      · refine ⟨content, hsame.trans holds, ?_⟩
        rw [← Header.isAt_offset]
        by_contra hmiss
        have lacking : Lacking registry license fs p loc header content :=
          ⟨hasked, leads, holds, by simpa using hmiss⟩
        exact hdone p hp lacking.lacks leads
      · obtain rfl : p = q := by
          by_contra hne
          have hsymm : Std.Symm (Apart fs) := ⟨fun _ _ h loc hb ha => h loc ha hb⟩
          exact apart.forall hp hq hne loc leads lacking.leads
        obtain rfl := Option.some.inj (hasked.symm.trans lacking.asked)
        exact ⟨_, hnew, found_after_writing plain whole hp lacking⟩
    have read' : fs'.readText p = .ok content' :=
      FileSystem.readText_eq_ok.mpr ⟨loc, leads', holds'⟩
    exact ⟨fun _ => ⟨content', read'⟩, by
      simp [lacks, hasked, read', (Header.isAt_offset content' header).mpr hfound]⟩

theorem Stamped.altered (stamped : Stamped registry license files fs fs') :
    Altered registry license files fs fs' :=
  ⟨stamped.shape, fun loc => (stamped.content loc).imp_left (·.1)⟩

/-- After all missing headers were written, an ignore file can only have more ignored, unless it
starts with a byte order mark. -/
theorem Stamped.stricter (stamped : Stamped registry license files fs fs')
    (plain : PlainHeaders registry license) (whole : NoLoneDirective fs files) {file : Path}
    (hmark : ∀ content, fs.readText file = .ok content →
      content.toList.head? = some byteOrderMark → fs'.readText file = .ok content) :
    Stricter (rulesAt fs' file) (rulesAt fs file) := by
  rcases stamped.altered.rulesAt_cases file with
    heq | ⟨p, hp, loc, header, old, lacking, leads, hnew⟩
  · rw [heq]
    exact .refl _
  · have leads' := (leadsTo_congr stamped.shape.symm).mp leads
    obtain ⟨-, hheader, hkeep⟩ := plain p header lacking.asked
    have hold : old.toList.head? ≠ some byteOrderMark := by
      intro hhead
      have hread := hmark old (FileSystem.readText_eq_ok.mpr ⟨loc, leads, lacking.holds⟩) hhead
      obtain ⟨loc', hloc', hsame⟩ := FileSystem.readText_eq_ok.mp hread
      obtain rfl := leadsTo_unique leads' hloc'
      have heq := String.toByteArray_inj.mp (Option.some.inj (hnew.symm.trans hsame))
      exact Header.inserted_ne old header heq
    obtain ⟨added, hadded, hrules⟩ := Ignore.rulesOfText_withHeader
      (whole p hp old lacking.read) hold hheader hkeep
    rw [rulesAt_of_leadsTo leads lacking.holds, rulesAt_of_leadsTo leads' hnew,
      Ignore.rulesOf_toUTF8, Ignore.rulesOf_toUTF8, Header.toList_inserted, hrules]
    exact Ignore.stricter_append hadded _

/-- With stricter ignore files, the candidates are still there to be collected, and none is new. -/
theorem candidates_of_stricter (tree : fs.root.WellFormed) (shape : fs'.SameShape fs)
    (strict : ∀ n, fs.node top = .ok n → ∀ dir, Entered (rulesBelow fs top) n dir →
      BothStricter (rulesBelow fs' top dir) (rulesBelow fs top dir))
    (h : candidatesBelow fs globs top = .ok files) :
    ∃ files', candidatesBelow fs' globs top = .ok files' ∧ ∀ p ∈ files', p ∈ files := by
  rcases node_congr shape top with ⟨e, hnode, -⟩ | ⟨n, n', hnode, hnode', hshape⟩
  · rw [candidatesBelow, hnode] at h
    cases h
  · have hn' : n'.isDir = n.isDir := Node.isDir_congr (Option.some.inj (hshape []))
    by_cases hn : n.isDir = true
    · obtain ⟨entries, rfl⟩ := Node.isDir_iff.mp hn
      obtain ⟨entries', rfl⟩ := Node.isDir_iff.mp (hn'.trans hn)
      obtain ⟨files', hfiles'⟩ := exists_candidates_of_node globs hnode'
      refine ⟨files', hfiles', fun p hp => ?_⟩
      have tree' := tree.of_sameShape shape.symm.root
      obtain ⟨below, hbelow, hsel⟩ := (mem_candidates_iff tree' hnode' hfiles').mp hp
      exact (mem_candidates_iff tree hnode h).mpr
        ⟨below, hbelow, hsel.of_stricter hshape (strict _ hnode)⟩
    · rw [candidatesBelow_single hnode (by simpa using hn)] at h
      obtain rfl := Except.ok.inj h
      exact ⟨_, candidatesBelow_single hnode' (by simpa [hn'] using hn), fun p hp => hp⟩

theorem stamped_run {o : Options} {report : Report} (tree : fs.root.WellFormed)
    (hwrite : o.write = true) (hlicense : loadLicense fs o.license = .ok license)
    (hitems : items fs registry o.root = .ok (files.map .ok))
    (hrun : (run registry o fs).1 = .ok report) :
    Stamped registry license files fs (run registry o fs).2 := by
  obtain ⟨top, globs, -, -, hfiles⟩ := items_eq_ok.mp hitems
  have apart := (candidates_comesTo tree hfiles).2.2
  rw [run_eq_scan hlicense hitems] at hrun ⊢
  refine ⟨sameShape_checkItems (HeaderCache.renders_new registry license), fun loc => ?_⟩
  rcases scan_content_cases registry license o.write apart loc with ⟨hsame, hdone⟩ | ⟨-, hwritten⟩
  · exact .inl ⟨hsame, hdone ⟨report, hrun⟩ hwrite⟩
  · exact .inr hwritten

/-- A run where nothing is missing is in order and changes nothing. -/
theorem run_of_not_lacks {o : Options} (tree : fs.root.WellFormed)
    (hlicense : loadLicense fs o.license = .ok license)
    (hitems : items fs registry o.root = .ok (files.map .ok))
    (hfiles : ∀ p ∈ files, Legible registry fs p ∧ lacks registry license fs p = false) :
    (∃ summary, (run registry o fs).1.bind Report.verdict = .ok summary) ∧
      (run registry o fs).2 = fs := by
  constructor
  · have hrun := (run_eq_ok tree hlicense hitems).mpr ⟨fun p hp => (hfiles p hp).1, rfl⟩
    have hnone : files.filter (lacks registry license fs) = [] := by
      simpa [List.filter_eq_nil_iff] using fun p hp => (hfiles p hp).2
    exact ⟨_, by rw [hrun, Except.bind, verdict_reportOf, if_pos hnone]⟩
  · rw [run_eq_scan hlicense hitems]
    exact checkItems_fs_eq (HeaderCache.renders_new registry license)
      fun _ p hp => (hfiles p hp).2

/-- A run that wrote headers is followed by one that finds nothing to do, if no candidate is a lone
directive line, and if the first run altered neither the license file nor, through a link, an
ignore file that starts with a byte order mark, of a directory that the walk comes to. -/
theorem run_after_run {o : Options} {report : Report} (tree : fs.root.WellFormed)
    (hwrite : o.write = true) (hitems : items fs .builtin o.root = .ok (files.map .ok))
    (whole : NoLoneDirective fs files) (hrun : (run .builtin o fs).1 = .ok report)
    (hlicense : (run .builtin o fs).2.readText o.license = fs.readText o.license)
    (hmark : ∀ top node dir name content, fs.absolute o.root = .ok top → fs.node top = .ok node →
      Entered (rulesBelow fs top) node dir → name = licenseIgnoreName ∨ name = versionIgnoreName →
      fs.readText ((pathBelow top dir).join ⟨name⟩) = .ok content →
      content.toList.head? = some byteOrderMark →
      (run .builtin o fs).2.readText ((pathBelow top dir).join ⟨name⟩) = .ok content) :
    let fs' := (run .builtin o fs).2
    (∃ summary, (run .builtin o fs').1.bind Report.verdict = .ok summary) ∧
      (run .builtin o fs').2 = fs' := by
  intro fs'
  obtain ⟨license, hload⟩ : ∃ license, loadLicense fs o.license = .ok license := by
    rcases run_cases .builtin o fs with ⟨e, -, heq⟩ | ⟨license, -, hload, -⟩
    · rw [heq] at hrun
      cases hrun
    · exact ⟨license, hload⟩
  have hload' : loadLicense fs' o.license = .ok license := by
    rw [loadLicense, hlicense]
    exact hload
  have plain := plainHeaders_builtin license
  have stamped := stamped_run tree hwrite hload hitems hrun
  obtain ⟨top, globs, habsolute, hglobs, hfiles⟩ := items_eq_ok.mp hitems
  have strict (node : Node) (hnode : fs.node top = .ok node) (dir : Location)
      (entered : Entered (rulesBelow fs top) node dir) :
      BothStricter (rulesBelow fs' top dir) (rulesBelow fs top dir) := by
    constructor <;> refine stamped.stricter plain whole fun content => ?_
    · exact hmark top node dir _ content habsolute hnode entered (.inl rfl)
    · exact hmark top node dir _ content habsolute hnode entered (.inr rfl)
  obtain ⟨files', hfiles', hsub⟩ := candidates_of_stricter tree stamped.shape strict hfiles
  have habsolute' : fs'.absolute o.root = .ok top := by
    rw [FileSystem.absolute, stamped.shape.cwd]
    exact habsolute
  have apart := (candidates_comesTo tree hfiles).2.2
  have legible := ((run_eq_ok tree hload hitems).mp hrun).1
  exact run_of_not_lacks (tree.of_sameShape stamped.shape.root.symm) hload'
    (items_eq_ok.mpr ⟨top, globs, habsolute', hglobs, hfiles'⟩)
    fun p hp => stamped.not_lacks plain whole apart (hsub p hp) (legible p (hsub p hp))

end

def selfLicensed (content : String) : FileSystem where
  root := .dir [("license.py", .file content.toUTF8)]
  cwd := ⟨"/"⟩

/-- A directory whose ignore file is a link to a file with a registered extension. -/
def linkedRules (rules : String) : FileSystem where
  root := .dir [(".gitignore", .link ⟨"rules.html"⟩), ("LICENSE", .file "L".toUTF8),
    ("rules.html", .file rules.toUTF8), ("x.py", .file "".toUTF8)]
  cwd := ⟨"/"⟩

private theorem lookupPath_html :
    Registry.builtin.lookupPath ⟨"/rules.html"⟩ = some ("html", .block "<!--" "     " "-->") := by
  rw [Registry.lookupPath_builtin]
  decide +kernel

private theorem lookupPath_license :
    Registry.builtin.lookupPath ⟨"/license.py"⟩ = some ("py", .line "# ") := by
  rw [Registry.lookupPath_builtin]
  decide +kernel

private theorem readText_selfLicensed (content : String) :
    (selfLicensed content).readText ⟨"/license.py"⟩ = .ok content :=
  FileSystem.readText_eq_ok.mpr ⟨["license.py"], rfl, rfl⟩

private theorem readText_linkedRules (rules : String) :
    (linkedRules rules).readText ⟨"/rules.html"⟩ = .ok rules :=
  FileSystem.readText_eq_ok.mpr ⟨["rules.html"], rfl, rfl⟩

private theorem run_selfLicensed {content text header new : String}
    (hitems : items (selfLicensed content) .builtin ⟨"/"⟩ = .ok ([⟨"/license.py"⟩].map .ok))
    (hload : loadLicense (selfLicensed content) ⟨"/license.py"⟩ = .ok ⟨text⟩)
    (hheader : (Style.line "# ").header text = header)
    (hround : Header.round content header = (false, new)) :
    run .builtin ⟨⟨"/"⟩, ⟨"/license.py"⟩, true⟩ (selfLicensed content) =
      (.ok ⟨⟨1, 0, 0, 1, 1⟩, [⟨"/license.py"⟩]⟩, selfLicensed new) := by
  rw [run_eq_scan (o := ⟨⟨"/"⟩, ⟨"/license.py"⟩, true⟩) hload hitems]
  exact scan_single lookupPath_license hheader (readText_selfLicensed content) hround rfl

private theorem run_linkedRules {rules : String}
    (hitems : items (linkedRules rules) .builtin ⟨"/"⟩ = .ok ([⟨"/rules.html"⟩].map .ok))
    (hround : Header.round rules "<!--\n     L\n-->" =
      (false, "<!--\n     L\n-->\n" ++ rules)) :
    run .builtin ⟨⟨"/"⟩, ⟨"/LICENSE"⟩, true⟩ (linkedRules rules) =
      (.ok ⟨⟨1, 0, 0, 1, 1⟩, [⟨"/rules.html"⟩]⟩,
        linkedRules ("<!--\n     L\n-->\n" ++ rules)) := by
  have hload : loadLicense (linkedRules rules) ⟨"/LICENSE"⟩ = .ok ⟨"L"⟩ := rfl
  rw [run_eq_scan (o := ⟨⟨"/"⟩, ⟨"/LICENSE"⟩, true⟩) hload hitems]
  exact scan_single lookupPath_html (by decide +kernel) (readText_linkedRules rules) hround rfl

private theorem text_linkedRules {rules text : String} {p : Path}
    (h : (linkedRules rules).readText p = .ok text) : text = "L" ∨ text = rules ∨ text = "" := by
  obtain ⟨loc, -, hc⟩ := FileSystem.readText_eq_ok.mp h
  have hat := Node.content?_eq_some.mp hc
  cases loc with
  | nil => cases hat
  | cons name rest =>
    have hfile {content : String} (h : (Node.file content.toUTF8).at? rest =
        some (.file text.toUTF8)) : text = content := by
      cases rest with
      | nil => exact (String.toByteArray_inj.mp (Node.file.inj (Option.some.inj h))).symm
      | cons next rest => cases h
    obtain ⟨n, hn, hrest⟩ := Option.bind_eq_some_iff.mp hat
    have hmem := mem_of_lookup_eq_some hn
    simp only [List.mem_cons, Prod.mk.injEq, List.not_mem_nil, or_false] at hmem
    rcases hmem with ⟨-, rfl⟩ | ⟨-, rfl⟩ | ⟨-, rfl⟩ | ⟨-, rfl⟩
    · cases rest <;> cases hrest
    · exact .inl (hfile hrest)
    · exact .inr (.inl (hfile hrest))
    · exact .inr (.inr (hfile hrest))

private theorem absolute_linkedRules (rules : String) :
    (linkedRules rules).absolute ⟨"/"⟩ = .ok ⟨"/"⟩ := absolute_root rfl

theorem run_after_run_linkedRules :
    (run .builtin ⟨⟨"/"⟩, ⟨"/LICENSE"⟩, true⟩
        (run .builtin ⟨⟨"/"⟩, ⟨"/LICENSE"⟩, true⟩ (linkedRules "x.py\n")).2).2 =
      (run .builtin ⟨⟨"/"⟩, ⟨"/LICENSE"⟩, true⟩ (linkedRules "x.py\n")).2 := by
  have tree : (linkedRules "x.py\n").root.WellFormed := by decide +kernel
  have hitems : items (linkedRules "x.py\n") .builtin ⟨"/"⟩ = .ok ([⟨"/rules.html"⟩].map .ok) :=
    items_builtin tree (absolute_linkedRules _) rfl (by decide) (by decide +kernel)
  have hrun := run_linkedRules hitems (by decide +kernel)
  have htext {p : Path} {text : String} (h : (linkedRules "x.py\n").readText p = .ok text) :
      ¬ StartsDirective text.toList ∧ text.toList.head? ≠ some byteOrderMark := by
    rcases text_linkedRules h with rfl | rfl | rfl <;> decide
  have whole : NoLoneDirective (linkedRules "x.py\n") [⟨"/rules.html"⟩] :=
    fun p _ text hread hd => absurd hd (htext hread).1
  have hlicense : (run .builtin ⟨⟨"/"⟩, ⟨"/LICENSE"⟩, true⟩ (linkedRules "x.py\n")).2.readText
      ⟨"/LICENSE"⟩ = (linkedRules "x.py\n").readText ⟨"/LICENSE"⟩ := by
    rw [hrun]
    rfl
  exact (run_after_run (o := ⟨⟨"/"⟩, ⟨"/LICENSE"⟩, true⟩) tree rfl hitems whole
    (congrArg Prod.fst hrun) hlicense
    fun _ _ _ _ _ _ _ _ _ hread hhead => absurd hhead (htext hread).2).2

/-- The mark is behind the header now, so the rule in its line is another one. -/
private theorem verdict_linkedRules :
    (run .builtin ⟨⟨"/"⟩, ⟨"/LICENSE"⟩, true⟩
        (linkedRules "<!--\n     L\n-->\n\ufeffx.py\n")).1.bind Report.verdict =
      .error (.noHeader [⟨"/x.py"⟩]) := by
  let fs := linkedRules "<!--\n     L\n-->\n\ufeffx.py\n"
  have tree : fs.root.WellFormed := by decide +kernel
  have hload : loadLicense fs ⟨"/LICENSE"⟩ = .ok ⟨"L"⟩ := rfl
  have hitems : items fs .builtin ⟨"/"⟩ = .ok ([⟨"/rules.html"⟩, ⟨"/x.py"⟩].map .ok) :=
    items_builtin tree (absolute_linkedRules _) rfl (by decide) (by decide +kernel)
  have hlegible : ∀ p ∈ [(⟨"/rules.html"⟩ : Path), ⟨"/x.py"⟩], Legible .builtin fs p := by
    simp only [List.forall_mem_cons]
    exact ⟨fun _ => ⟨_, readText_linkedRules _⟩,
      fun _ => ⟨"", FileSystem.readText_eq_ok.mpr ⟨["x.py"], rfl, rfl⟩⟩, by simp⟩
  have hlacking : [(⟨"/rules.html"⟩ : Path), ⟨"/x.py"⟩].filter (lacks .builtin ⟨"L"⟩ fs) =
      [⟨"/x.py"⟩] := by
    simp only [List.filter_cons, List.filter_nil, lacks, headerFor?_builtin]
    decide +kernel
  have hrun := (run_eq_ok (o := ⟨⟨"/"⟩, ⟨"/LICENSE"⟩, true⟩) tree hload hitems).mpr
    ⟨hlegible, rfl⟩
  rw [hrun, Except.bind, verdict_reportOf, hlacking]
  rfl

/-- What the two conditions on the first run are for. A license file with a registered extension
that the scan comes to is no longer the same license for the second run. And an ignore file that is
a link to a candidate, when it starts with a byte order mark, loses its first rule. -/
theorem run_after_run_misses :
    (items (selfLicensed "L") .builtin ⟨"/"⟩ = .ok ([⟨"/license.py"⟩].map .ok) ∧
      NoLoneDirective (selfLicensed "L") [⟨"/license.py"⟩] ∧
      (run .builtin ⟨⟨"/"⟩, ⟨"/license.py"⟩, true⟩ (selfLicensed "L")).1.bind Report.verdict =
        .error (.noHeader [⟨"/license.py"⟩]) ∧
      (run .builtin ⟨⟨"/"⟩, ⟨"/license.py"⟩, true⟩
          (run .builtin ⟨⟨"/"⟩, ⟨"/license.py"⟩, true⟩ (selfLicensed "L")).2).1.bind
          Report.verdict =
        .error (.noHeader [⟨"/license.py"⟩])) ∧
    (items (linkedRules "\ufeffx.py\n") .builtin ⟨"/"⟩ = .ok ([⟨"/rules.html"⟩].map .ok) ∧
      NoLoneDirective (linkedRules "\ufeffx.py\n") [⟨"/rules.html"⟩] ∧
      (run .builtin ⟨⟨"/"⟩, ⟨"/LICENSE"⟩, true⟩ (linkedRules "\ufeffx.py\n")).1.bind
          Report.verdict =
        .error (.noHeader [⟨"/rules.html"⟩]) ∧
      (run .builtin ⟨⟨"/"⟩, ⟨"/LICENSE"⟩, true⟩
          (run .builtin ⟨⟨"/"⟩, ⟨"/LICENSE"⟩, true⟩ (linkedRules "\ufeffx.py\n")).2).1.bind
          Report.verdict =
        .error (.noHeader [⟨"/x.py"⟩])) := by
  constructor
  · have hroot {content : String} : (selfLicensed content).absolute ⟨"/"⟩ = .ok ⟨"/"⟩ :=
      absolute_root rfl
    have hitems : items (selfLicensed "L") .builtin ⟨"/"⟩ = .ok ([⟨"/license.py"⟩].map .ok) :=
      items_builtin (by decide +kernel) hroot rfl (by decide) (by decide +kernel)
    have hitems' : items (selfLicensed "# L\nL") .builtin ⟨"/"⟩ =
        .ok ([⟨"/license.py"⟩].map .ok) :=
      items_builtin (by decide +kernel) hroot rfl (by decide) (by decide +kernel)
    have hrun : run .builtin ⟨⟨"/"⟩, ⟨"/license.py"⟩, true⟩ (selfLicensed "L") =
        (.ok ⟨⟨1, 0, 0, 1, 1⟩, [⟨"/license.py"⟩]⟩, selfLicensed "# L\nL") :=
      run_selfLicensed hitems rfl (by decide +kernel : _ = "# L") (by decide +kernel)
    have hrun' : run .builtin ⟨⟨"/"⟩, ⟨"/license.py"⟩, true⟩ (selfLicensed "# L\nL") =
        (.ok ⟨⟨1, 0, 0, 1, 1⟩, [⟨"/license.py"⟩]⟩, selfLicensed "# # L\n# L\n# L\nL") :=
      run_selfLicensed hitems' rfl (by decide +kernel : _ = "# # L\n# L") (by decide +kernel)
    refine ⟨hitems, fun p hp content hcontent hd => ?_, by rw [hrun]; rfl, by rw [hrun, hrun']; rfl⟩
    obtain rfl := List.mem_singleton.mp hp
    obtain rfl := Except.ok.inj ((readText_selfLicensed "L").symm.trans hcontent)
    exact absurd hd (by decide)
  · have hitems : items (linkedRules "\ufeffx.py\n") .builtin ⟨"/"⟩ =
        .ok ([⟨"/rules.html"⟩].map .ok) :=
      items_builtin (by decide +kernel) (absolute_linkedRules _) rfl (by decide) (by decide +kernel)
    have hrun := run_linkedRules hitems (by decide +kernel)
    refine ⟨hitems, fun p _ content hcontent hd => ?_, by rw [hrun]; rfl, ?_⟩
    · rcases text_linkedRules hcontent with rfl | rfl | rfl <;> exact absurd hd (by decide)
    · rw [hrun]
      exact verdict_linkedRules

end LicenseHeader.Scan
