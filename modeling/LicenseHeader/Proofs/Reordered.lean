import LicenseHeader.Proofs.Caching
import LicenseHeader.Proofs.Verdict
import Mathlib.Data.Fin.VecNotation
import Mathlib.Data.List.FinRange

/-! What the order of the files has to do with a scan: checks of files at different places commute,
so a scan in another order leaves the same files and finds the same, each in its own order. -/
namespace LicenseHeader.Scan

open Header (inserted)

section
variable {registry : Registry} {license : License} {write : Bool} {fs fs' : FileSystem} {p q : Path}
  {files files' : List Path} {loc : Location} {header old : String}
  {result result' : Except ScanError (Option Outcome)}

theorem Lacking.unique {loc' : Location} {header' old' : String}
    (h : Lacking registry license fs p loc header old)
    (h' : Lacking registry license fs p loc' header' old') :
    loc = loc' ∧ header = header' ∧ old = old' :=
  ⟨leadsTo_unique h.leads h'.leads, Option.some.inj (h.asked.symm.trans h'.asked),
    Except.ok.inj (h.read.symm.trans h'.read)⟩

theorem Step.fs_of_lacking (h : Step registry license true fs p result fs')
    (lacking : Lacking registry license fs p loc header old) :
    fs' = fs.putText loc (inserted old header) := by
  rcases h.fs_cases with ⟨-, hstay⟩ | ⟨-, loc', header', old', lacking', rfl⟩
  · cases lacking.lacks.symm.trans (hstay rfl)
  · obtain ⟨rfl, rfl, rfl⟩ := lacking.unique lacking'
    rfl

theorem Step.fs_unique {fs'' : FileSystem} (h : Step registry license write fs p result fs')
    (h' : Step registry license write fs p result' fs'') : fs' = fs'' := by
  rcases h.fs_cases with ⟨rfl, hstay⟩ | ⟨rfl, loc, header, old, lacking, rfl⟩
  · exact (h'.eq_of_not hstay).symm
  · exact (h'.fs_of_lacking lacking).symm

/-- Checks of files at different places leave the same files in either order. -/
theorem Step.comm {left right both both' : FileSystem}
    {resultp resultq resultp' resultq' : Except ScanError (Option Outcome)}
    (hp : Step registry license write fs p resultp left)
    (hpq : Step registry license write left q resultq both)
    (hq : Step registry license write fs q resultq' right)
    (hqp : Step registry license write right p resultp' both') (apart : Apart fs p q) :
    both = both' := by
  have hlacksq := hp.lacks_eq apart
  have hlacksp := hq.lacks_eq apart.symm
  rcases hp.fs_cases with ⟨rfl, hstayp⟩ | ⟨rfl, locp, headerp, oldp, lackingp, hleft⟩
  · rw [hqp.eq_of_not fun hw => hlacksp.trans (hstayp hw)]
    exact hpq.fs_unique hq
  · rcases hq.fs_cases with ⟨rfl, hstayq⟩ | ⟨-, locq, headerq, oldq, lackingq, hright⟩
    · rw [hpq.eq_of_not fun hw => hlacksq.trans (hstayq hw)]
      exact hp.fs_unique hqp
    · -- both files are written, the second one as it was before the first
      have hboth := hpq.fs_of_lacking ((hp.lacking_iff apart).mpr lackingq)
      have hboth' := hqp.fs_of_lacking ((hq.lacking_iff apart.symm).mpr lackingp)
      have hne : locp ≠ locq := fun heq => apart locp lackingp.leads (heq ▸ lackingq.leads)
      rw [hboth, hboth', hleft, hright]
      exact FileSystem.putText_comm lackingp.holds lackingq.holds hne _ _

def afterCheck (registry : Registry) (license : License) (write : Bool) (fs : FileSystem)
    (p : Path) : FileSystem :=
  (checkFileAnew registry license write fs p).2

theorem step_afterCheck (registry : Registry) (license : License) (write : Bool) (fs : FileSystem)
    (p : Path) : Step registry license write fs p (checkFileAnew registry license write fs p).1
      (afterCheck registry license write fs p) := by
  have hnew := HeaderCache.renders_new registry license
  rw [afterCheck, checkFileAnew_eq (s := ⟨fs, .new license⟩) hnew]
  exact (checkFile_step (s := ⟨fs, .new license⟩) hnew write p).1

theorem afterCheck_comm (apart : Apart fs p q) :
    afterCheck registry license write (afterCheck registry license write fs p) q =
      afterCheck registry license write (afterCheck registry license write fs q) p :=
  (step_afterCheck ..).comm (step_afterCheck ..) (step_afterCheck ..) (step_afterCheck ..) apart

/-- The loop over legible files at different places comes to each of them. -/
theorem checkItems_fs {s : State} (hc : HeaderCache.Renders registry license s.cache) (r : Report)
    (legible : ∀ p ∈ files, Legible registry s.fs p) (apart : files.Pairwise (Apart s.fs)) :
    (checkItems registry write s r (files.map .ok)).2.fs =
      files.foldl (afterCheck registry license write) s.fs := by
  induction files generalizing s r with
  | nil => rfl
  | cons p files ih =>
    rw [List.forall_mem_cons] at legible
    obtain ⟨hp, apart⟩ := List.pairwise_cons.mp apart
    obtain ⟨s', hcache, -, ⟨e, step, -⟩ | ⟨o, step, heq⟩⟩ := checkItems_cons hc write r p
    · obtain ⟨o, ho⟩ := step.exists_outcome legible.1
      cases ho
    · have legible' : ∀ q ∈ files, Legible registry s'.fs q :=
        fun q hq => (step.legible_iff (hp q hq)).mpr (legible.2 q hq)
      have apart' : files.Pairwise (Apart s'.fs) :=
        apart.imp (apart_congr step.sameShape.symm).mp
      rw [List.map_cons, heq, List.foldl_cons,
        ← step.fs_unique (step_afterCheck registry license write s.fs p)]
      exact ih hcache (r.record p o) legible' apart'

theorem foldl_afterCheck_perm (perm : files.Perm files') (apart : files.Pairwise (Apart fs)) :
    files.foldl (afterCheck registry license write) fs =
      files'.foldl (afterCheck registry license write) fs := by
  induction perm generalizing fs with
  | nil => rfl
  | cons p perm ih =>
    have step := step_afterCheck registry license write fs p
    exact ih ((List.pairwise_cons.mp apart).2.imp (apart_congr step.sameShape.symm).mp)
  | swap p q files =>
    have hqp := (List.pairwise_cons.mp apart).1 p List.mem_cons_self
    simp only [List.foldl_cons, afterCheck_comm hqp]
  | trans perm perm' ih ih' =>
    exact (ih apart).trans (ih' ((perm.pairwise_iff Apart.symm).mp apart))

theorem extensionsOf_perm (registry : Registry) (perm : files.Perm files') :
    extensionsOf registry files = extensionsOf registry files' :=
  List.toFinset_eq_of_perm _ _ (perm.filterMap _)

theorem summary_reportOf_perm (perm : files.Perm files') :
    (reportOf registry license write fs files).summary =
      (reportOf registry license write fs files').summary := by
  simp only [reportOf, summary_foldl_record, perm.countP_eq, extensionsOf_perm registry perm]

/-- Two orders of legible files at different places: the files left are the same, and so is the
summary, and what lacks its header is reported in either order. -/
theorem scan_perm (license : License) (write : Bool) (perm : files'.Perm files)
    (apart : files.Pairwise (Apart fs)) (legible : ∀ p ∈ files, Legible registry fs p) :
    let out := scan registry write license fs (files.map .ok)
    let out' := scan registry write license fs (files'.map .ok)
    let found := files.filter (lacks registry license fs)
    let found' := files'.filter (lacks registry license fs)
    out'.2 = out.2 ∧ ∃ summary,
      out.1.bind Report.verdict = (if found = [] then .ok summary else .error (.noHeader found)) ∧
      out'.1.bind Report.verdict =
        if found = [] then .ok summary else .error (.noHeader found') := by
  intro out out' found found'
  have hnew := HeaderCache.renders_new registry license
  have apart' := (perm.symm.pairwise_iff Apart.symm).mp apart
  have legible' : ∀ p ∈ files', Legible registry fs p :=
    fun p hp => legible p (perm.mem_iff.mp hp)
  have hnil : found' = [] ↔ found = [] := by
    rw [← List.length_eq_zero_iff, ← List.length_eq_zero_iff, (perm.filter _).length_eq]
  have hleft : out.2 = files.foldl (afterCheck registry license write) fs :=
    checkItems_fs (s := ⟨fs, .new license⟩) hnew .empty legible apart
  have hleft' : out'.2 = files'.foldl (afterCheck registry license write) fs :=
    checkItems_fs (s := ⟨fs, .new license⟩) hnew .empty legible' apart'
  have hreport : out.1 = .ok (reportOf registry license write fs files) :=
    (scan_eq_ok apart).mpr ⟨legible, rfl⟩
  have hreport' : out'.1 = .ok (reportOf registry license write fs files') :=
    (scan_eq_ok apart').mpr ⟨legible', rfl⟩
  refine ⟨?_, (reportOf registry license write fs files).summary, ?_, ?_⟩
  · rw [hleft, hleft', foldl_afterCheck_perm perm apart']
  · rw [hreport, Except.bind, verdict_reportOf]
  · rw [hreport', Except.bind, verdict_reportOf, summary_reportOf_perm perm, if_congr hnil rfl rfl]

theorem filter_ofFn {α : Type} {n : ℕ} (f : Fin n → α) (keep : α → Bool) :
    (List.ofFn f).filter keep = ((List.finRange n).filter fun i => keep (f i)).map f := by
  rw [List.ofFn_eq_map, List.filter_map]
  rfl

/-- Legible files at different places, scanned in another order: position `i` has the file that
position `σ i` had. The scan leaves the same files. It fails as it did if some lacked their header,
and reports the positions that it reported, in their new order; else it has the same summary. -/
theorem scan_reordered {n : ℕ} (registry : Registry) (license : License) (write : Bool)
    (fs : FileSystem) (files : Fin n → Path) (σ : Equiv.Perm (Fin n))
    (apart : ∀ i j, i ≠ j → Apart fs (files i) (files j))
    (legible : ∀ i, Legible registry fs (files i)) :
    let out := scan registry write license fs (List.ofFn fun i => .ok (files i))
    let out' := scan registry write license fs (List.ofFn fun i => .ok (files (σ i)))
    let missing := fun i => lacks registry license fs (files i)
    let found := ((List.finRange n).filter missing).map files
    let found' := ((List.finRange n).filter fun i => missing (σ i)).map fun i => files (σ i)
    out'.2 = out.2 ∧ found'.Perm found ∧ ∃ summary,
      out.1.bind Report.verdict = (if found = [] then .ok summary else .error (.noHeader found)) ∧
      out'.1.bind Report.verdict =
        if found = [] then .ok summary else .error (.noHeader found') := by
  intro out out' missing found found'
  let files' := fun i => files (σ i)
  have perm : (List.ofFn files').Perm (List.ofFn files) := σ.ofFn_comp_perm files
  have hfound : (List.ofFn files).filter (lacks registry license fs) = found := filter_ofFn ..
  have hfound' : (List.ofFn files').filter (lacks registry license fs) = found' := filter_ofFn ..
  have hout : scan registry write license fs ((List.ofFn files).map .ok) = out :=
    congrArg (scan registry write license fs) (List.map_ofFn ..)
  have hout' : scan registry write license fs ((List.ofFn files').map .ok) = out' :=
    congrArg (scan registry write license fs) (List.map_ofFn ..)
  have hapart : (List.ofFn files).Pairwise (Apart fs) :=
    List.pairwise_ofFn.mpr fun _ _ hlt => apart _ _ hlt.ne
  have hlegible : ∀ p ∈ List.ofFn files, Legible registry fs p :=
    List.forall_mem_ofFn_iff.mpr legible
  have hscan := scan_perm license write perm hapart hlegible
  rw [hout, hout', hfound, hfound'] at hscan
  refine ⟨hscan.1, ?_, hscan.2⟩
  rw [← hfound, ← hfound']
  exact perm.filter _

end

def twoBare : FileSystem where
  root := .dir [("a.py", .file "x".toUTF8), ("b.py", .file "#!s\ny".toUTF8),
    ("c.py", .file "# L\nz".toUTF8)]
  cwd := ⟨"/"⟩

def bareLast : Fin 3 → Path := ![⟨"/c.py"⟩, ⟨"/a.py"⟩, ⟨"/b.py"⟩]

theorem scan_reordered_reversed :
    let back : Items := [.ok ⟨"/b.py"⟩, .ok ⟨"/a.py"⟩, .ok ⟨"/c.py"⟩]
    (scan .builtin true ⟨"L"⟩ twoBare back).1.bind Report.verdict =
        .error (.noHeader [⟨"/b.py"⟩, ⟨"/a.py"⟩]) ∧
      (scan .builtin true ⟨"L"⟩ twoBare back).2 =
        (scan .builtin true ⟨"L"⟩ twoBare back.reverse).2 := by
  intro back
  have hleads : ∀ i, twoBare.LeadsTo (bareLast i) (![["c.py"], ["a.py"], ["b.py"]] i) := by
    intro i
    match i with
    | 0 | 1 | 2 => rfl
  have hapart : ∀ i j, i ≠ j → Apart twoBare (bareLast i) (bareLast j) := by
    intro i j hne
    refine apart_of_leadsTo (hleads i) (hleads j) ?_
    revert i j
    decide
  have hlegible : ∀ i, Legible .builtin twoBare (bareLast i) := by
    intro i _
    match i with
    | 0 => exact ⟨"# L\nz", rfl⟩
    | 1 => exact ⟨"x", rfl⟩
    | 2 => exact ⟨"#!s\ny", rfl⟩
  obtain ⟨hleft, -, summary, -, hverdict⟩ :=
    scan_reordered .builtin ⟨"L"⟩ true twoBare bareLast Fin.revPerm hapart hlegible
  have hmissing : ∀ i, lacks .builtin ⟨"L"⟩ twoBare (bareLast i) = ![false, true, true] i := by
    simp only [lacks, headerFor?_builtin]
    decide +kernel
  simp only [hmissing] at hverdict
  exact ⟨hverdict, hleft⟩

end LicenseHeader.Scan
