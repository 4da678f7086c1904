import LicenseHeader.Proofs.Entered
import LicenseHeader.Proofs.Frame

/-! What a run leaves of the list of candidates: it stays as it is, unless a header gets into an
ignore file through a link. -/
namespace LicenseHeader.Scan

open Header (inserted)
open Ignore (Level RulePair isIgnored IsRemark rulesOf)
open Text (byteOrderMark)

/-- A way for a header into an ignore file: the ignore file of a directory that the walk comes to is
a link, and leads to a candidate that lacks the header. -/
structure Leak (registry : Registry) (o : Options) (fs : FileSystem) (header old : String) where
  license : License
  loaded : loadLicense fs o.license = .ok license
  files : List Path
  candidates : items fs registry o.root = .ok (files.map .ok)
  top : Path
  absolute : fs.absolute o.root = .ok top
  node : Node
  rooted : fs.node top = .ok node
  dir : Location
  entered : Entered (rulesBelow fs top) node dir
  name : String
  isRules : name = licenseIgnoreName ∨ name = versionIgnoreName
  target : Path
  isLink : node.kindAt? (dir ++ [name]) = some (.link target)
  path : Path
  candidate : path ∈ files
  loc : Location
  lacking : Lacking registry license fs path loc header old
  leads : fs.LeadsTo ((pathBelow top dir).join ⟨name⟩) loc

section
variable {registry : Registry} {license : License} {fs fs' : FileSystem}
  {globs : List (List Glob.Token)} {root top p : Path} {base dir below loc : Location}
  {name : String} {n : Node} {o : Options} {files : List Path} {needsDir : Bool}

theorem candidatesBelow_congr (tree : fs.root.WellFormed) (shape : fs'.SameShape fs)
    (agree : ∀ n, fs.node top = .ok n → ∀ dir, Entered (rulesBelow fs top) n dir →
      rulesBelow fs' top dir = rulesBelow fs top dir) :
    candidatesBelow fs' globs top = candidatesBelow fs globs top := by
  rcases node_congr shape top with ⟨e, hnode, hnode'⟩ | ⟨n, n', hnode, hnode', hshape⟩
  · rw [candidatesBelow, candidatesBelow, hnode, hnode']
  · have hn' : n'.isDir = n.isDir := Node.isDir_congr (Option.some.inj (hshape []))
    by_cases hn : n.isDir = true
    · obtain ⟨entries, rfl⟩ := Node.isDir_iff.mp hn
      obtain ⟨entries', rfl⟩ := Node.isDir_iff.mp (hn'.trans hn)
      obtain ⟨base, -, -, hat, -⟩ := FileSystem.node_eq_ok.mp hnode
      rw [candidatesBelow_of_node hnode, candidatesBelow_of_node hnode',
        walk_congr (wellFormed_at tree hat) hshape (agree _ hnode)]
    · rw [candidatesBelow_single hnode (by simpa using hn),
        candidatesBelow_single hnode' (by simpa [hn'] using hn)]

theorem items_congr (tree : fs.root.WellFormed) (shape : fs'.SameShape fs)
    (agree : ∀ top n, fs.absolute root = .ok top → fs.node top = .ok n →
      ∀ dir, Entered (rulesBelow fs top) n dir →
        rulesBelow fs' top dir = rulesBelow fs top dir) :
    items fs' registry root = items fs registry root := by
  have habsolute : fs'.absolute root = fs.absolute root := by
    rw [FileSystem.absolute, FileSystem.absolute, shape.cwd]
  rw [items, items, habsolute]
  cases htop : fs.absolute root with
  | error e => rfl
  | ok top =>
    simp only [bind, Except.bind]
    cases Scan.globs registry with
    | error e => rfl
    | ok globs =>
      simp only
      rw [candidatesBelow_congr tree shape fun n hn => agree top n htop hn]

/-- A hidden name leads to a candidate only if it is a link. -/
theorem exists_link_of_hidden (tree : fs.root.WellFormed)
    (hloc : fs.locate top = .ok (.existing base, needsDir)) (hat : fs.root.at? base = some n)
    (hdir : ∃ names, n.kindAt? dir = some (.dir names)) (hname : IsName name)
    (hidden : isHidden name = true) (comes : ComesTo fs top base below p)
    (hp : fs.LeadsTo p loc) (leads : fs.LeadsTo (pathBelow top (dir ++ [name])) loc) :
    ∃ target, n.kindAt? (dir ++ [name]) = some (.link target) := by
  have hkind (loc : Location) : fs.root.kindAt? (base ++ loc) = n.kindAt? loc := by
    rw [Node.kindAt?, Node.at?_append, hat]
    rfl
  obtain ⟨names, hnames⟩ := hdir
  cases hk : n.kindAt? (dir ++ [name]) with
  | none =>
    rw [← hkind, ← List.append_assoc] at hk
    exact absurd leads
      (FileSystem.not_leadsTo_pathBelow tree hloc hname ((hkind dir).trans hnames) hk loc)
  | some k =>
    by_cases hlink : ∃ target, k = .link target
    · obtain ⟨target, rfl⟩ := hlink
      exact ⟨target, rfl⟩
    · have hhere := fs.leadsTo_pathBelow tree hloc (by simp) ((hkind _).trans hk)
        fun target heq => hlink ⟨target, heq⟩
      have hbelow : base ++ below = base ++ (dir ++ [name]) :=
        (leadsTo_unique comes.leads hp).trans (leadsTo_unique leads hhere)
      have hvisible := comes.admitted.visible name
        (List.append_cancel_left hbelow ▸ List.mem_append_right dir (List.mem_singleton_self name))
      rw [hidden] at hvisible
      cases hvisible

/-- Where putting headers in leaves the rules of linked ignore files as they are, it leaves the
rules of all directories that the walk comes to. -/
theorem rulesBelow_of_altered (tree : fs.root.WellFormed)
    (hload : loadLicense fs o.license = .ok license)
    (hitems : items fs registry o.root = .ok (files.map .ok))
    (altered : Altered registry license files fs fs')
    (keeps : ∀ header old, Nonempty (Leak registry o fs header old) →
      rulesOf (inserted old header).toUTF8 = rulesOf old.toUTF8)
    (htop : fs.absolute o.root = .ok top) (hn : fs.node top = .ok n)
    (hdir : Entered (rulesBelow fs top) n dir) :
    rulesBelow fs' top dir = rulesBelow fs top dir := by
  have hsame {name : String} (hrules : name = licenseIgnoreName ∨ name = versionIgnoreName) :
      rulesAt fs' ((pathBelow top dir).join ⟨name⟩) =
        rulesAt fs ((pathBelow top dir).join ⟨name⟩) := by
    rcases altered.rulesAt_cases ((pathBelow top dir).join ⟨name⟩) with
      heq | ⟨p, hp, loc, header, old, lacking, leads, hnew⟩
    · exact heq
    · obtain ⟨_, globs, htop', -, hfiles⟩ := items_eq_ok.mp hitems
      obtain rfl := Except.ok.inj (htop.symm.trans htop')
      obtain ⟨⟨base, needsDir, hloc, hcomes⟩, -⟩ := candidates_comesTo tree hfiles
      obtain ⟨base', needsDir', hloc', hat, -⟩ := FileSystem.node_eq_ok.mp hn
      obtain ⟨rfl, rfl⟩ : base = base' ∧ needsDir = needsDir' := by
        cases hloc.symm.trans hloc'
        exact ⟨rfl, rfl⟩
      obtain ⟨below, comes⟩ := hcomes p hp
      have hname : IsName name ∧ isHidden name = true := by
        rcases hrules with rfl | rfl <;> decide
      -- candidates have visible names, so the name of the ignore file is not the candidate's own
      obtain ⟨target, hlink⟩ := exists_link_of_hidden tree hloc hat hdir.isDir hname.1 hname.2
        comes lacking.leads (pathBelow_concat top dir name ▸ leads)
      rw [rulesAt_of_leadsTo leads lacking.holds,
        rulesAt_of_leadsTo ((leadsTo_congr altered.shape.symm).mp leads) hnew]
      exact keeps header old ⟨⟨license, hload, files, hitems, top, htop, n, hn, dir, hdir, name,
        hrules, target, hlink, p, hp, loc, lacking, leads⟩⟩
  rw [rulesBelow, rulesBelow, hsame (.inl rfl), hsame (.inr rfl)]

theorem rulesOf_inserted_of_remarks {header old : String}
    (hremarks : ∀ line ∈ header.toList.splitOn '\n', IsRemark line)
    (hmark : old.toList.head? ≠ some byteOrderMark) :
    rulesOf (inserted old header).toUTF8 = rulesOf old.toUTF8 := by
  rw [Ignore.rulesOf_toUTF8, Ignore.rulesOf_toUTF8, Header.toList_inserted,
    Ignore.rulesOfText_withHeader_of_remarks hmark hremarks]

/-- Whatever comes of a run, the same files are candidates after it as before, in the same order,
if the headers that get into ignore files through links change no rules of theirs. A header of
empty lines and comments changes none, unless one hides behind a byte order mark. -/
theorem items_after_run (registry : Registry) (o : Options) (tree : fs.root.WellFormed)
    (keeps : ∀ header old, Nonempty (Leak registry o fs header old) →
      rulesOf (inserted old header).toUTF8 = rulesOf old.toUTF8) :
    items (run registry o fs).2 registry o.root = items fs registry o.root ∧
    ∀ header old : String, (∀ line ∈ header.toList.splitOn '\n', IsRemark line) →
      old.toList.head? ≠ some byteOrderMark →
      rulesOf (inserted old header).toUTF8 = rulesOf old.toUTF8 := by
  refine ⟨?_, fun header old => rulesOf_inserted_of_remarks⟩
  rcases run_cases registry o fs with ⟨e, -, hrun⟩ | ⟨license, files, hload, hitems, hrun⟩
  · rw [hrun]
  · obtain ⟨_, _, -, -, hfiles⟩ := items_eq_ok.mp hitems
    have altered := altered_scan registry license o.write (candidates_comesTo tree hfiles).2.2
    rw [hrun]
    exact items_congr tree altered.shape fun top n htop hn dir hdir =>
      rulesBelow_of_altered tree hload hitems altered keeps htop hn hdir

end

/-- A directory whose ignore file is a link to one of two files with registered extensions. -/
def linkedTo (file rules : String) : FileSystem where
  root := .dir [(".gitignore", .link ⟨file⟩), ("LICENSE", .file "L".toUTF8),
    (file, .file rules.toUTF8), ("z.py", .file "".toUTF8)]
  cwd := ⟨"/"⟩

private theorem run_linkedTo {file rules extension header new : String} {style : Style} {p : Path}
    (hitems : items (linkedTo file rules) .builtin ⟨"/"⟩ = .ok ([p].map .ok))
    (hlookup : Registry.builtin.lookupPath p = some (extension, style))
    (hheader : style.header "L" = header) (hround : Header.round rules header = (false, new))
    (hread : (linkedTo file rules).readText p = .ok rules)
    (hwrite : (linkedTo file rules).writeText p new = .ok (linkedTo file new)) :
    run .builtin ⟨⟨"/"⟩, ⟨"/LICENSE"⟩, true⟩ (linkedTo file rules) =
      (.ok ⟨⟨1, 0, 0, 1, 1⟩, [p]⟩, linkedTo file new) := by
  have hload : loadLicense (linkedTo file rules) ⟨"/LICENSE"⟩ = .ok ⟨"L"⟩ := rfl
  rw [run_eq_scan (o := ⟨⟨"/"⟩, ⟨"/LICENSE"⟩, true⟩) hload hitems]
  exact scan_single hlookup hheader hread hround hwrite

private theorem run_linkedTo_py {rules : String}
    (hitems : items (linkedTo "a.py" rules) .builtin ⟨"/"⟩ = .ok ([⟨"/a.py"⟩].map .ok))
    (hround : Header.round rules "# L" = (false, "# L\n" ++ rules)) :
    run .builtin ⟨⟨"/"⟩, ⟨"/LICENSE"⟩, true⟩ (linkedTo "a.py" rules) =
      (.ok ⟨⟨1, 0, 0, 1, 1⟩, [⟨"/a.py"⟩]⟩, linkedTo "a.py" ("# L\n" ++ rules)) := by
  have hlookup : Registry.builtin.lookupPath ⟨"/a.py"⟩ = some ("py", .line "# ") := by
    rw [Registry.lookupPath_builtin]
    decide +kernel
  have hheader : (Style.line "# ").header "L" = "# L" := by decide +kernel
  exact run_linkedTo hitems hlookup hheader hround
    (FileSystem.readText_eq_ok.mpr ⟨["a.py"], rfl, rfl⟩) rfl

theorem items_after_run_linked :
    (run .builtin ⟨⟨"/"⟩, ⟨"/LICENSE"⟩, true⟩ (linkedTo "a.py" "z.py\n")).2 =
      linkedTo "a.py" "# L\nz.py\n" ∧
    items (linkedTo "a.py" "# L\nz.py\n") .builtin ⟨"/"⟩ = .ok ([⟨"/a.py"⟩].map .ok) := by
  have tree : (linkedTo "a.py" "z.py\n").root.WellFormed := by decide +kernel
  have hitems : items (linkedTo "a.py" "z.py\n") .builtin ⟨"/"⟩ =
      .ok ([⟨"/a.py"⟩].map .ok) :=
    items_builtin tree (absolute_root rfl) rfl (by decide) (by decide +kernel)
  have hrun := run_linkedTo_py hitems (by decide +kernel)
  have keeps : ∀ header old, Nonempty (Leak .builtin ⟨⟨"/"⟩, ⟨"/LICENSE"⟩, true⟩
      (linkedTo "a.py" "z.py\n") header old) →
      rulesOf (inserted old header).toUTF8 = rulesOf old.toUTF8 := by
    rintro header old ⟨leak⟩
    -- the one leak puts a comment into a file that starts with a letter
    have lacking := leak.lacking
    have hfiles : leak.files = [⟨"/a.py"⟩] := items_unique leak.candidates hitems
    have hpath : leak.path = ⟨"/a.py"⟩ := List.mem_singleton.mp (hfiles ▸ leak.candidate)
    have hlicense : leak.license = ⟨"L"⟩ := Except.ok.inj (leak.loaded.symm.trans rfl)
    rw [hpath, hlicense] at lacking
    have hread : (linkedTo "a.py" "z.py\n").readText ⟨"/a.py"⟩ = .ok "z.py\n" :=
      FileSystem.readText_eq_ok.mpr ⟨["a.py"], rfl, rfl⟩
    obtain rfl : "z.py\n" = old := Except.ok.inj (hread.symm.trans lacking.read)
    have hasked : headerFor? .builtin ⟨"L"⟩ ⟨"/a.py"⟩ = some "# L" := by
      rw [headerFor?_builtin]
      decide +kernel
    obtain rfl : "# L" = header := Option.some.inj (hasked.symm.trans lacking.asked)
    refine rulesOf_inserted_of_remarks ?_ (by decide)
    intro line hline
    have hlines : "# L".toList.splitOn '\n' = ["# L".toList] := by decide +kernel
    rw [hlines, List.mem_singleton] at hline
    exact .inr (hline ▸ rfl)
  obtain ⟨hsame, -⟩ := items_after_run .builtin ⟨⟨"/"⟩, ⟨"/LICENSE"⟩, true⟩ tree keeps
  rw [hrun] at hsame
  exact ⟨congrArg Prod.snd hrun, hsame.trans hitems⟩

/-- What becomes of the candidates if a header does change rules: the first line of a block has
everything ignored, and a byte order mark that is no longer at the start undoes a rule. -/
theorem items_after_run_misses :
    (items (linkedTo "a.rs" "z.py\n") .builtin ⟨"/"⟩ = .ok ([⟨"/a.rs"⟩].map .ok) ∧
      (run .builtin ⟨⟨"/"⟩, ⟨"/LICENSE"⟩, true⟩ (linkedTo "a.rs" "z.py\n")).1.bind
        Report.verdict = .error (.noHeader [⟨"/a.rs"⟩]) ∧
      items (run .builtin ⟨⟨"/"⟩, ⟨"/LICENSE"⟩, true⟩ (linkedTo "a.rs" "z.py\n")).2
        .builtin ⟨"/"⟩ = .ok []) ∧
    (items (linkedTo "a.py" "\ufeffz.py\n") .builtin ⟨"/"⟩ = .ok ([⟨"/a.py"⟩].map .ok) ∧
      (run .builtin ⟨⟨"/"⟩, ⟨"/LICENSE"⟩, true⟩ (linkedTo "a.py" "\ufeffz.py\n")).1.bind
        Report.verdict = .error (.noHeader [⟨"/a.py"⟩]) ∧
      items (run .builtin ⟨⟨"/"⟩, ⟨"/LICENSE"⟩, true⟩ (linkedTo "a.py" "\ufeffz.py\n")).2
        .builtin ⟨"/"⟩ = .ok ([⟨"/a.py"⟩, ⟨"/z.py"⟩].map .ok)) := by
  have hroot {file rules : String} : (linkedTo file rules).absolute ⟨"/"⟩ = .ok ⟨"/"⟩ :=
    absolute_root rfl
  constructor
  · have hitems : items (linkedTo "a.rs" "z.py\n") .builtin ⟨"/"⟩ = .ok ([⟨"/a.rs"⟩].map .ok) :=
      items_builtin (by decide +kernel) hroot rfl (by decide) (by decide +kernel)
    have hlookup : Registry.builtin.lookupPath ⟨"/a.rs"⟩ =
        some ("rs", .block "/*" " * " " */") := by
      rw [Registry.lookupPath_builtin]
      decide +kernel
    have hheader : (Style.block "/*" " * " " */").header "L" = "/*\n * L\n */" := by decide +kernel
    have hrun : run .builtin ⟨⟨"/"⟩, ⟨"/LICENSE"⟩, true⟩ (linkedTo "a.rs" "z.py\n") =
        (.ok ⟨⟨1, 0, 0, 1, 1⟩, [⟨"/a.rs"⟩]⟩, linkedTo "a.rs" "/*\n * L\n */\nz.py\n") :=
      run_linkedTo hitems hlookup hheader (by decide +kernel)
        (FileSystem.readText_eq_ok.mpr ⟨["a.rs"], rfl, rfl⟩) rfl
    have hnone : items (linkedTo "a.rs" "/*\n * L\n */\nz.py\n") .builtin ⟨"/"⟩ =
        .ok (([] : List Path).map .ok) :=
      items_builtin (by decide +kernel) hroot rfl (by decide) (by decide +kernel)
    rw [hrun]
    exact ⟨hitems, rfl, hnone⟩
  · have hitems : items (linkedTo "a.py" "\ufeffz.py\n") .builtin ⟨"/"⟩ =
        .ok ([⟨"/a.py"⟩].map .ok) :=
      items_builtin (by decide +kernel) hroot rfl (by decide) (by decide +kernel)
    have hboth : items (linkedTo "a.py" "# L\n\ufeffz.py\n") .builtin ⟨"/"⟩ =
        .ok ([⟨"/a.py"⟩, ⟨"/z.py"⟩].map .ok) :=
      items_builtin (by decide +kernel) hroot rfl (by decide) (by decide +kernel)
    rw [run_linkedTo_py hitems (by decide +kernel)]
    exact ⟨hitems, rfl, hboth⟩

end LicenseHeader.Scan
