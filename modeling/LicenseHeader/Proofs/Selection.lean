import LicenseHeader.Proofs.Candidates
import LicenseHeader.Proofs.Check
import LicenseHeader.Proofs.Patterns
import LicenseHeader.Proofs.Registry
import LicenseHeader.Proofs.Verdict

/-! The candidates of a scan of a directory, said without the walk and its patterns: the files that
are neither hidden nor ignored and have a registered extension. -/
namespace LicenseHeader.Scan

open Ignore (isIgnored)

/-- A file below a directory that a registry has a style for, and that nothing on the way there
hides or has ignored. -/
structure Eligible (registry : Registry) (fs : FileSystem) (top : Path) (n : Node)
    (below : Location) : Prop extends Admitted (rulesBelow fs top) [] below where
  isFile : n.kindAt? below = some .file
  registered : ∃ extension ∈ registry.extensions,
    (pathBelow top below).extension? = some extension

section
variable {registry : Registry} {fs : FileSystem} {top : Path} {below : Location}
  {entries : List (String × Node)}

theorem extension?_pathBelow {dir : Location} {name : String}
    (h : ∀ s ∈ dir ++ [name], IsName s) :
    (pathBelow top (dir ++ [name])).extension? = Path.nameExtension? name := by
  have hname : IsName name := h name (by simp)
  rw [pathBelow_concat, Path.extension?_join _ hname]

theorem checkFile_eq_none_iff {write : Bool} {s : State} {p : Path} :
    (checkFile registry write s p).1 = .ok none ↔ registry.lookupPath p = none := by
  rw [checkFile]
  cases registry.lookupPath p with
  | none => simp
  | some e =>
    simp only [reduceCtorEq, iff_false]
    cases checkHeader write s.fs p (s.cache.get e.1 e.2).1 <;> simp

theorem selected_iff_eligible {selects : String → Bool} (tree : (Node.dir entries).WellFormed)
    (hselects : ∀ name : String, '/' ∉ name.toList → isHidden name = false →
      (selects name = true ↔
        ∃ extension ∈ registry.extensions, Path.nameExtension? name = some extension)) :
    Selected (rulesBelow fs top) selects [] (.dir entries) below ↔
      Eligible registry fs top (.dir entries) below := by
  have hlast {dir : Location} {name : String} (visible : ∀ s ∈ dir ++ [name], isHidden s = false)
      (isFile : (Node.dir entries).kindAt? (dir ++ [name]) = some .file) :
      selects name = true ↔ ∃ extension ∈ registry.extensions,
        (pathBelow top (dir ++ [name])).extension? = some extension := by
    -- the tree is well-formed, so the last name has no slash and is the name of the path
    have hnames := tree.isName_of_kindAt? isFile
    rw [extension?_pathBelow hnames]
    exact hselects name (hnames name (by simp)).no_slash (visible name (by simp))
  constructor
  · intro h
    obtain ⟨dir, name, rfl, hsel⟩ := h.selects
    exact ⟨h.toAdmitted, h.isFile, (hlast h.visible h.isFile).mp hsel⟩
  · intro h
    rcases List.eq_nil_or_concat below with rfl | ⟨dir, name, rfl⟩
    · cases h.isFile
    · rw [List.concat_eq_append] at h ⊢
      exact ⟨h.toAdmitted, h.isFile, dir, name, rfl, (hlast h.visible h.isFile).mpr h.registered⟩

end

/-- If the extensions of a registry stand for themselves in patterns, a scan of a directory comes to
exactly the eligible files below it, to each once, and passes over none. The builtin extensions, of
letters and digits only, are such. -/
theorem items_eligible {registry : Registry} {fs : FileSystem} {root top : Path}
    {entries : List (String × Node)} (tree : fs.root.WellFormed) (literal : registry.Literal)
    (htop : fs.absolute root = .ok top) (hdir : fs.node top = .ok (.dir entries)) :
    (∃ files : List Path, items fs registry root = .ok (files.map .ok) ∧ files.Nodup ∧
      (∀ p, p ∈ files ↔
        ∃ below, p = pathBelow top below ∧ Eligible registry fs top (.dir entries) below) ∧
      ∀ p ∈ files, ∀ write s, (checkFile registry write s p).1 ≠ .ok none) ∧
    Registry.builtin.Literal ∧
    ∀ extension ∈ Registry.builtin.extensions, ∀ c ∈ extension.toList, c.isAlphanum = true := by
  refine ⟨?_, Registry.literal_builtin, fun _ => Registry.isAlphanum_builtin⟩
  obtain ⟨gs, hgs, hmatches⟩ := matchesSome_of_literal literal
  obtain ⟨files, hfiles⟩ := exists_candidates_of_node gs hdir
  have hmem (p : Path) : p ∈ files ↔
      ∃ below, p = pathBelow top below ∧ Eligible registry fs top (.dir entries) below := by
    rw [mem_candidates_iff tree hdir hfiles]
    simp only [selected_iff_eligible (wellFormed_of_node tree hdir) hmatches]
  refine ⟨_, items_eq_ok.mpr ⟨top, gs, htop, hgs, hfiles⟩, (candidates_comesTo tree hfiles).2.1,
    hmem, fun p hp write s hnone => ?_⟩
  obtain ⟨below, rfl, heligible⟩ := (hmem p).mp hp
  have hsome := Registry.lookupPath_isSome_iff.mpr heligible.registered
  rw [checkFile_eq_none_iff.mp hnone] at hsome
  cases hsome

/-- A directory with two files of one name, of which only the outer one is kept. -/
def sifted : FileSystem where
  root := .dir [(".gitignore", .file "*.py\nout/\n".toUTF8),
    (".licenseignore", .file "!keep.py\n".toUTF8), ("drop.py", .file "".toUTF8),
    ("keep.py", .file "".toUTF8), ("out", .dir [("keep.py", .file "".toUTF8)])]
  cwd := ⟨"/"⟩

theorem wellFormed_sifted : sifted.root.WellFormed := by decide +kernel

theorem ignored_sifted : let levels := levelsOf (rulesBelow sifted ⟨"/"⟩) []
    isIgnored levels "keep.py" false = false ∧ isIgnored levels "drop.py" false = true ∧
      isIgnored levels "out" true = true := by
  decide +kernel

theorem items_eligible_sifted : ∃ files : List Path,
    items sifted .builtin ⟨"/"⟩ = .ok (files.map .ok) ∧ ⟨"/keep.py"⟩ ∈ files ∧
      ⟨"/drop.py"⟩ ∉ files ∧ ⟨"/out/keep.py"⟩ ∉ files := by
  have htop : sifted.absolute ⟨"/"⟩ = .ok ⟨"/"⟩ := rfl
  obtain ⟨⟨files, hitems, -, hmem, -⟩, -⟩ := 
    items_eligible wellFormed_sifted Registry.literal_builtin htop rfl
  obtain ⟨hkeep, hdrop, hout⟩ := ignored_sifted
  have hbelow (loc : Location) {below : Location} (hloc : ∀ name ∈ loc, IsName name)
      (heligible : Eligible .builtin sifted ⟨"/"⟩ sifted.root below)
      (heq : pathBelow ⟨"/"⟩ loc = pathBelow ⟨"/"⟩ below) : loc = below :=
    (pathBelow_inj hloc (wellFormed_sifted.isName_of_kindAt? heligible.isFile)).mp heq
  refine ⟨files, hitems, (hmem _).mpr ⟨["keep.py"], rfl, ?_⟩, fun hp => ?_, fun hp => ?_⟩
  · refine ⟨⟨by decide, fun dir name rest heq => ?_⟩, rfl, "py", Registry.mem_extensions_builtin.mpr (by decide),
      by decide +kernel⟩
    cases dir with
    | nil =>
      obtain ⟨rfl, rfl⟩ := List.cons.inj heq
      exact hkeep
    | cons d dir => simp at heq
  · obtain ⟨below, heq, heligible⟩ := (hmem _).mp hp
    obtain rfl := hbelow ["drop.py"] (by decide) heligible heq
    have hkept := heligible.kept [] "drop.py" [] rfl
    rw [List.append_nil] at hkept
    cases hkept.symm.trans hdrop
  · obtain ⟨below, heq, heligible⟩ := (hmem _).mp hp
    obtain rfl := hbelow ["out", "keep.py"] (by decide) heligible heq
    have hkept := heligible.kept [] "out" ["keep.py"] rfl
    cases hkept.symm.trans hout

end LicenseHeader.Scan
