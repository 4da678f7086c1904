import LicenseHeader.Path.Relative
import LicenseHeader.Proofs.Absolute
import LicenseHeader.Proofs.Verdict

/-! Files as a report shows them: by the names on the way from the root, with slashes between. A
file can be found again from what is shown, unless a name has a backslash: that is shown as a slash
too. -/
namespace LicenseHeader

namespace Path

def slashed (s : String) : String :=
  String.ofList (s.toList.map fun c => if c == '\\' then '/' else c)

variable {p : Path} {s t : String} {segments rest : List (List Char)}

theorem backslash_not_mem_slashed (s : String) : '\\' ∉ (slashed s).toList := by
  rw [slashed, String.toList_ofList]
  intro hmem
  obtain ⟨c, -, hc⟩ := List.mem_map.mp hmem
  split at hc
  · cases hc
  · next hne => exact hne (beq_iff_eq.mpr hc)

theorem slashed_of_not_mem (h : '\\' ∉ s.toList) : slashed s = s := by
  have hmap : s.toList.map (fun c => if c == '\\' then '/' else c) = s.toList.map id := by
    apply List.map_congr_left
    intro c hc
    have hne : c ≠ '\\' := fun heq => h (heq ▸ hc)
    simp [hne]
  rw [slashed, hmap, List.map_id, String.ofList_toList]

theorem exists_component_of_not_isVoid {segment : List Char} (h : isVoid segment = false) :
    ∃ c, segmentComponent? segment = some c := by
  rw [segmentComponent?, if_neg (by simp [h])]
  split <;> exact ⟨_, rfl⟩

theorem dropSegments_append (segments rest : List (List Char)) :
    (dropSegments (segments.filterMap segmentComponent?).length (segments ++ rest)).dropWhile
      isVoid = rest.dropWhile isVoid := by
  induction segments with
  | nil => rw [List.filterMap_nil, List.length_nil, dropSegments, List.nil_append]
  | cons segment segments ih =>
    cases hvoid : isVoid segment with
    | true =>
      rw [List.filterMap_cons_none (segmentComponent?_eq_none.mpr hvoid), List.cons_append]
      cases hn : (segments.filterMap segmentComponent?).length with
      | zero =>
        rw [hn, dropSegments] at ih
        rw [dropSegments, List.dropWhile_cons_of_pos hvoid, ih]
      | succ n =>
        rw [hn] at ih
        rw [dropSegments, if_pos hvoid, ih]
    | false =>
      obtain ⟨c, hc⟩ := exists_component_of_not_isVoid hvoid
      rw [List.filterMap_cons_some hc, List.length_cons, List.cons_append, dropSegments,
        if_neg (by simp [hvoid]), ih]

theorem dropVoidEnd_of_not_isVoid (h : ∀ segment ∈ rest, isVoid segment = false) :
    dropVoidEnd rest = rest := by
  apply List.rdropWhile_eq_self_iff.mpr
  intro hne
  rw [h _ (List.getLast_mem hne)]
  exact Bool.false_ne_true

theorem dropWhile_of_not_isVoid (h : ∀ segment ∈ rest, isVoid segment = false) :
    rest.dropWhile isVoid = rest := by
  apply List.dropWhile_eq_self_iff.mpr
  intro hpos
  rw [h _ (List.getElem_mem hpos)]
  exact Bool.false_ne_true

/-- After the components of its start, an absolute path says what its last segments say. -/
theorem textAfter_of_parts {c : Component}
    (hparts : parts p.text.toList = (some c, segments ++ rest))
    (hrest : ∀ segment ∈ rest, isVoid segment = false) :
    textAfter ((segments.filterMap segmentComponent?).length + 1) p = writeSegments rest := by
  rw [textAfter, hparts]
  simp only
  rw [dropSegments_append, dropWhile_of_not_isVoid hrest, dropVoidEnd_of_not_isVoid hrest]

theorem not_isAbsolute_segment_append (h : IsSegment s) (t : String) :
    Path.isAbsolute ⟨s ++ "/" ++ t⟩ = false := by
  have hs := not_isAbsolute_segment h
  obtain ⟨c, cs, hcs⟩ := List.exists_cons_of_ne_nil (mt String.toList_eq_nil_iff.mp h.nonempty)
  simp only [isAbsolute, String.toList_append, hcs] at hs ⊢
  exact hs

theorem parts_fst_of_isAbsolute (h : p.isAbsolute = true) :
    (parts p.text.toList).1 = some .root := by
  obtain ⟨cs, hcs⟩ := List.head?_eq_some_iff.mp (beq_iff_eq.mp h)
  rw [hcs]
  rfl

/-- A text with slashes for backslashes leads elsewhere than the text, if that makes a
difference. -/
theorem join_slashed_iff (h : Path.isAbsolute ⟨s⟩ = false) :
    p.join ⟨slashed s⟩ = p.join ⟨s⟩ ↔ '\\' ∉ s.toList := by
  constructor
  · intro heq hmem
    have htext := congrArg Path.text heq
    cases habsolute : Path.isAbsolute ⟨slashed s⟩ with
    | true =>
      -- a name that starts with a backslash is shown as an absolute path
      have hjoined : '\\' ∈ (p.join ⟨s⟩).text.toList := by
        rw [text_join h]
        split <;> simp [hmem]
      rw [← htext, join, if_pos habsolute] at hjoined
      exact backslash_not_mem_slashed s hjoined
    | false =>
      have hsame : slashed s = s := by
        rw [text_join habsolute, text_join h] at htext
        split at htext <;> simpa using htext
      apply backslash_not_mem_slashed s
      rwa [hsame]
  · intro h
    rw [slashed_of_not_mem h]

theorem join_join_segment (h : IsSegment s) (ht : Path.isAbsolute ⟨t⟩ = false) :
    (p.join ⟨s⟩).join ⟨t⟩ = p.join ⟨s ++ "/" ++ t⟩ := by
  have hboth := not_isAbsolute_segment_append h t
  have hjoined : ¬ ((p.join ⟨s⟩).text = "" ∨ (p.join ⟨s⟩).endsInSlash = true) := by
    simp [join_ne_empty p h, endsInSlash_join p h]
  have htext : ((p.join ⟨s⟩).join ⟨t⟩).text = (p.join ⟨s ++ "/" ++ t⟩).text := by
    rw [text_join ht, if_neg hjoined, text_join (not_isAbsolute_segment h), text_join hboth]
    split <;> simp [String.append_assoc]
  exact congrArg Path.mk htext

end Path

namespace Scan

variable {top p : Path} {below : Location}

theorem endsInSlash_pathBelow (h : ∀ name ∈ below, IsName name) (hne : below ≠ []) :
    (pathBelow p below).endsInSlash = false := by
  rcases List.eq_nil_or_concat below with rfl | ⟨before, name, rfl⟩
  · exact absurd rfl hne
  · rw [List.concat_eq_append] at h ⊢
    rw [pathBelow_concat]
    exact Path.endsInSlash_join _ (h name (by simp)).isSegment

/-- A location after a path adds its names to the segments, and the rest says what it said
before. -/
theorem parts_pathBelow (h : ∀ name ∈ below, IsName name) (hne : below ≠ []) (hp : p.text ≠ "") :
    ∃ segments, Path.parts (pathBelow p below).text.toList =
        ((Path.parts p.text.toList).1, segments ++ below.map String.toList) ∧
      segments.filterMap Path.segmentComponent? =
        (Path.parts p.text.toList).2.filterMap Path.segmentComponent? := by
  induction below using List.reverseRecOn with
  | nil => exact absurd rfl hne
  | append_singleton before name ih =>
    have hname : IsSegment name := (h name (by simp)).isSegment
    have hbefore : ∀ n ∈ before, IsName n := fun n hn => h n (by simp [hn])
    rw [pathBelow_concat]
    by_cases hnil : before = []
    · subst hnil
      exact Path.parts_join p hname
    · obtain ⟨segments, hparts, hsame⟩ := ih hbefore hnil
      refine ⟨segments, ?_, hsame⟩
      rw [Path.parts_join_of_not_endsInSlash (pathBelow_ne_empty hbefore hp)
        (endsInSlash_pathBelow hbefore hnil) hname, hparts]
      simp

theorem intercalate_cons_cons (a b : String) (rest : Location) :
    "/".intercalate (a :: b :: rest) = a ++ "/" ++ "/".intercalate (b :: rest) := by
  rw [← String.toList_inj]
  simp [String.toList_intercalate]

theorem not_isAbsolute_intercalate (h : ∀ name ∈ below, IsName name) :
    Path.isAbsolute ⟨"/".intercalate below⟩ = false := by
  cases below with
  | nil => rfl
  | cons name rest =>
    have hname := (h name List.mem_cons_self).isSegment
    cases rest with
    | nil => exact Path.not_isAbsolute_segment hname
    | cons next rest =>
      rw [intercalate_cons_cons]
      exact Path.not_isAbsolute_segment_append hname _

/-- The names of a location, with slashes between, lead from a path to what is there. -/
theorem join_intercalate (top : Path) (h : ∀ name ∈ below, IsName name) (hne : below ≠ []) :
    top.join ⟨"/".intercalate below⟩ = pathBelow top below := by
  induction below generalizing top with
  | nil => exact absurd rfl hne
  | cons name rest ih =>
    obtain ⟨hname, hrest⟩ := List.forall_mem_cons.mp h
    cases rest with
    | nil => rfl
    | cons next rest =>
      rw [pathBelow_cons, ← ih _ hrest (List.cons_ne_nil next rest), intercalate_cons_cons,
        Path.join_join_segment hname.isSegment (not_isAbsolute_intercalate hrest)]

theorem writeSegments_map (below : Location) :
    Path.writeSegments (below.map String.toList) = "/".intercalate below := by
  rw [Path.writeSegments, ← String.toList_inj, String.toList_ofList, String.toList_intercalate]
  rfl

theorem relativeTo_pathBelow (htop : top.isAbsolute = true) (h : ∀ name ∈ below, IsName name)
    (hne : below ≠ []) :
    (pathBelow top below).relativeTo top = Path.slashed ("/".intercalate below) := by
  have hbase : top.components.isPrefixOf (pathBelow top below).components = true := by
    rw [components_pathBelow h, List.isPrefixOf_iff_prefix]
    exact List.prefix_append _ _
  obtain ⟨segments, hparts, hsame⟩ := parts_pathBelow h hne (Path.ne_empty_of_isAbsolute htop)
  have hstart := Path.parts_fst_of_isAbsolute htop
  have hlength : top.components.length =
      (segments.filterMap Path.segmentComponent?).length + 1 := by
    rw [Path.components]
    simp only
    rw [hstart, hsame, List.length_append, Option.toList_some, List.length_singleton, Nat.add_comm]
  have hvoid : ∀ segment ∈ below.map String.toList, Path.isVoid segment = false := by
    intro segment hsegment
    obtain ⟨name, hname, rfl⟩ := List.mem_map.mp hsegment
    exact Path.not_isVoid_segment (h name hname).isSegment
  rw [hstart] at hparts
  have hshown : (pathBelow top below).stripBase? top = some ("/".intercalate below) := by
    rw [Path.stripBase?, if_pos hbase, hlength, Path.textAfter_of_parts hparts hvoid,
      writeSegments_map]
  rw [Path.relativeTo, hshown]
  rfl

theorem backslash_mem_intercalate :
    '\\' ∈ ("/".intercalate below).toList ↔ ∃ name ∈ below, '\\' ∈ name.toList := by
  induction below with
  | nil => simp
  | cons name rest ih =>
    cases rest with
    | nil => simp
    | cons next rest =>
      rw [intercalate_cons_cons, String.toList_append, String.toList_append, List.mem_append, ih]
      simp

/-- What is shown of a file leads from the root to the file exactly if no name below the root has a
backslash. -/
theorem join_relativeTo_iff (htop : top.isAbsolute = true) (h : ∀ name ∈ below, IsName name)
    (hne : below ≠ []) :
    top.join ⟨(pathBelow top below).relativeTo top⟩ = pathBelow top below ↔
      ∀ name ∈ below, '\\' ∉ name.toList := by
  rw [relativeTo_pathBelow htop h hne, ← join_intercalate top h hne,
    Path.join_slashed_iff (not_isAbsolute_intercalate h), backslash_mem_intercalate]
  simp

/-- The names on the way from a root to a path below it. -/
def namesBelow (root p : Path) : Location :=
  (p.components.drop root.components.length).map Component.text

theorem namesBelow_pathBelow (h : ∀ name ∈ below, IsName name) :
    namesBelow top (pathBelow top below) = below := by
  rw [namesBelow, components_pathBelow h, List.drop_left, List.map_map]
  exact List.map_id below

section
variable {registry : Registry} {fs : FileSystem} {arg root q : Path}
  {entries : List (String × Node)} {files : List Path} {globs : List (List Glob.Token)}

theorem exists_location_of_candidate (tree : fs.root.WellFormed)
    (hdir : fs.node root = .ok (.dir entries))
    (hfiles : candidatesBelow fs globs root = .ok files) (hp : p ∈ files) :
    ∃ below, p = pathBelow root below ∧ below ≠ [] ∧ ∀ name ∈ below, IsName name := by
  obtain ⟨below, rfl, hselected⟩ := (mem_candidates_iff tree hdir hfiles).mp hp
  have tree' := wellFormed_of_node tree hdir
  exact ⟨below, rfl, hselected.ne_nil, tree'.isName_of_kindAt? hselected.isFile⟩

/-- A candidate below an absolute root is shown by the names on the way to it. -/
theorem shown_of_candidate (tree : fs.root.WellFormed) (hroot : root.isAbsolute = true)
    (hdir : fs.node root = .ok (.dir entries))
    (hfiles : candidatesBelow fs globs root = .ok files) (hp : p ∈ files) :
    let names := namesBelow root p
    p = pathBelow root names ∧ p.relativeTo root = Path.slashed ("/".intercalate names) ∧
      (root.join ⟨p.relativeTo root⟩ = p ↔ ∀ name ∈ names, '\\' ∉ name.toList) := by
  obtain ⟨below, rfl, hne, hnames⟩ := exists_location_of_candidate tree hdir hfiles hp
  rw [namesBelow_pathBelow hnames]
  exact ⟨rfl, relativeTo_pathBelow hroot hnames hne, join_relativeTo_iff hroot hnames hne⟩

theorem mem_of_reported {o : Options} {report : Report} (tree : fs.root.WellFormed)
    (hitems : items fs registry o.root = .ok (files.map .ok))
    (hrun : (run registry o fs).1 = .ok report) (hp : p ∈ report.violations) : p ∈ files := by
  rcases run_cases registry o fs with ⟨e, -, heq⟩ | ⟨license, -, hlicense, -, -⟩
  · rw [heq] at hrun
    cases hrun
  · rw [((run_eq_ok tree hlicense hitems).mp hrun).2, violations_reportOf] at hp
    exact (List.mem_filter.mp hp).1

/-- A file below a directory is shown by the names on the way to it, and what is shown leads from
the root to the file, exactly if no name has a backslash. So files of one report that are shown in
one way have a backslash in a name. -/
theorem shown_below (tree : fs.root.WellFormed) (hcwd : fs.cwd.Settled)
    (hroot : fs.absolute arg = .ok root) (hdir : fs.node root = .ok (.dir entries))
    (hitems : items fs registry root = .ok (files.map .ok)) :
    (∀ p ∈ files,
      let names := namesBelow root p
      p = pathBelow root names ∧ p.relativeTo root = Path.slashed ("/".intercalate names) ∧
        (root.join ⟨p.relativeTo root⟩ = p ↔ ∀ name ∈ names, '\\' ∉ name.toList)) ∧
    ∀ license write report, (run registry ⟨root, license, write⟩ fs).1 = .ok report →
      ∀ p ∈ report.violations, ∀ q ∈ report.violations, p ≠ q →
        p.relativeTo root = q.relativeTo root →
          ∃ name ∈ namesBelow root p ++ namesBelow root q, '\\' ∈ name.toList := by
  have habsolute : root.isAbsolute = true :=
    (Path.settled_of_absolute? hcwd (FileSystem.absolute_eq_ok.mp hroot)).isAbsolute
  obtain ⟨top, globs, htop, -, hfiles⟩ := items_eq_ok.mp hitems
  -- the walk makes the root absolute again, and it stays what it is
  obtain rfl : root = top :=
    Except.ok.inj ((FileSystem.absolute_absolute hcwd hroot).symm.trans htop)
  have hshown := fun p (hp : p ∈ files) => shown_of_candidate tree habsolute hdir hfiles hp
  refine ⟨hshown, fun license write report hrun p hp q hq hne hsame => ?_⟩
  have hreported : ∀ p ∈ report.violations, p ∈ files :=
    fun p => mem_of_reported tree hitems hrun
  obtain ⟨-, -, hpjoin⟩ := hshown p (hreported p hp)
  obtain ⟨-, -, hqjoin⟩ := hshown q (hreported q hq)
  by_contra hnone
  have hplain : ∀ name ∈ namesBelow root p ++ namesBelow root q, '\\' ∉ name.toList := by
    simpa using hnone
  rw [List.forall_mem_append] at hplain
  -- both would be found again from what is shown of them
  have heq := hpjoin.mpr hplain.1
  rw [hsame, hqjoin.mpr hplain.2] at heq
  exact hne heq.symm

end

/-- A directory with a file below a directory `a`, and one with a backslash in its name where the
other has the slash after `a`. -/
def backslashed : FileSystem where
  root := .dir [("w", .dir [("LICENSE", .file "L".toUTF8), ("r", .dir [
    ("a", .dir [("b.py", .file "x".toUTF8)]), ("a\\b.py", .file "x".toUTF8)])])]
  cwd := ⟨"/w"⟩

theorem wellFormed_backslashed : backslashed.root.WellFormed := by decide +kernel

theorem settled_backslashed : backslashed.cwd.Settled :=
  .step (c := .name "w") .oneSlash ⟨⟨by decide, by decide, by decide⟩, by decide⟩

theorem absolute_backslashed : backslashed.absolute ⟨"r/"⟩ = .ok ⟨"/w/r/"⟩ := by
  rw [FileSystem.absolute_eq_ok]
  decide +kernel

theorem items_backslashed : items backslashed .builtin ⟨"/w/r/"⟩ =
    .ok ([⟨"/w/r/a/b.py"⟩, ⟨"/w/r/a\\b.py"⟩].map .ok) :=
  items_builtin wellFormed_backslashed
    (FileSystem.absolute_absolute settled_backslashed absolute_backslashed) rfl (by decide)
    (by decide +kernel)

theorem run_backslashed :
    (run .builtin ⟨⟨"/w/r/"⟩, ⟨"/w/LICENSE"⟩, false⟩ backslashed).1 =
      .ok ⟨⟨2, 0, 2, 0, 1⟩, [⟨"/w/r/a/b.py"⟩, ⟨"/w/r/a\\b.py"⟩]⟩ := by
  have hlicense : loadLicense backslashed ⟨"/w/LICENSE"⟩ = .ok ⟨"L"⟩ := rfl
  have hlegible : ∀ p ∈ [(⟨"/w/r/a/b.py"⟩ : Path), ⟨"/w/r/a\\b.py"⟩],
      Legible .builtin backslashed p := by
    simp only [List.forall_mem_cons]
    exact ⟨fun _ => ⟨"x", rfl⟩, fun _ => ⟨"x", rfl⟩, by simp⟩
  have hreport : ⟨⟨2, 0, 2, 0, 1⟩, [⟨"/w/r/a/b.py"⟩, ⟨"/w/r/a\\b.py"⟩]⟩ =
      reportOf .builtin ⟨"L"⟩ false backslashed [⟨"/w/r/a/b.py"⟩, ⟨"/w/r/a\\b.py"⟩] := by
    simp only [reportOf, List.foldl_cons, List.foldl_nil, outcome?, lacks, headerFor?_builtin,
      extensionsOf, Registry.lookupPath_builtin]
    decide +kernel
  exact (run_eq_ok (o := ⟨⟨"/w/r/"⟩, ⟨"/w/LICENSE"⟩, false⟩) wellFormed_backslashed hlicense
    items_backslashed).mpr ⟨hlegible, hreport⟩

theorem shown_below_backslashed :
    let p : Path := ⟨"/w/r/a/b.py"⟩
    let q : Path := ⟨"/w/r/a\\b.py"⟩
    Path.join ⟨"/w/r/"⟩ ⟨p.relativeTo ⟨"/w/r/"⟩⟩ = p ∧ q.relativeTo ⟨"/w/r/"⟩ = "a/b.py" ∧
      ∃ name ∈ namesBelow ⟨"/w/r/"⟩ p ++ namesBelow ⟨"/w/r/"⟩ q, '\\' ∈ name.toList := by
  intro p q
  obtain ⟨hfiles, hreports⟩ := shown_below wellFormed_backslashed settled_backslashed
    absolute_backslashed rfl items_backslashed
  obtain ⟨-, hp, hjoin⟩ := hfiles p (by decide)
  obtain ⟨-, hq, -⟩ := hfiles q (by decide)
  have hsame : p.relativeTo ⟨"/w/r/"⟩ = q.relativeTo ⟨"/w/r/"⟩ := by
    rw [hp, hq]
    decide +kernel
  refine ⟨hjoin.mpr (by decide +kernel), ?_, ?_⟩
  · rw [hq]
    decide +kernel
  · exact hreports _ _ _ run_backslashed p (by decide) q (by decide) (by decide) hsame

/-- Of two files of one report, shown in one way, one cannot be found again. -/
theorem shown_below_misses :
    let p : Path := ⟨"/w/r/a/b.py"⟩
    let q : Path := ⟨"/w/r/a\\b.py"⟩
    backslashed.absolute ⟨"r/"⟩ = .ok ⟨"/w/r/"⟩ ∧
      (run .builtin ⟨⟨"/w/r/"⟩, ⟨"/w/LICENSE"⟩, false⟩ backslashed).1 =
        .ok ⟨⟨2, 0, 2, 0, 1⟩, [p, q]⟩ ∧ p ≠ q ∧
      p.relativeTo ⟨"/w/r/"⟩ = q.relativeTo ⟨"/w/r/"⟩ ∧
      Path.join ⟨"/w/r/"⟩ ⟨q.relativeTo ⟨"/w/r/"⟩⟩ ≠ q := by
  intro p q
  have hshown : p.relativeTo ⟨"/w/r/"⟩ = q.relativeTo ⟨"/w/r/"⟩ := by decide +kernel
  have hlost : Path.join ⟨"/w/r/"⟩ ⟨q.relativeTo ⟨"/w/r/"⟩⟩ ≠ q := by decide +kernel
  exact ⟨absolute_backslashed, run_backslashed, by decide, hshown, hlost⟩

end Scan
end LicenseHeader
