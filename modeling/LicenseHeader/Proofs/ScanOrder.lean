import LicenseHeader.Proofs.Shown
import Mathlib.Data.List.Sort

/-! The order of a scan: files are compared by the names on the way from the root, one name after
another. It is no order of path texts, where a slash would count like any other byte. -/
namespace LicenseHeader.Scan

/-- Whether a scan of a root comes by one path before another: the names on the way are compared
one after another by their bytes. -/
def Before (root p q : Path) : Prop :=
  List.Lex Text.byteLt (namesBelow root p) (namesBelow root q)

section
variable {registry : Registry} {fs : FileSystem} {root top p q r : Path} {loc loc' : Location}
  {entries : List (String × Node)} {files files' : List Path} {globs : List (List Glob.Token)}

theorem Before.irrefl (root p : Path) : ¬ Before root p p :=
  List.lex_irrefl Text.byteLt_irrefl _

theorem Before.trans (hpq : Before root p q) (hqr : Before root q r) : Before root p r :=
  List.lex_trans Text.byteLt_trans hpq hqr

theorem Before.asymm (h : Before root p q) : ¬ Before root q p :=
  fun h' => Before.irrefl root p (h.trans h')

/-- Of the paths of two locations below a root, one comes before the other. -/
theorem before_trichotomy (h : ∀ name ∈ loc, IsName name) (h' : ∀ name ∈ loc', IsName name)
    (hne : loc ≠ loc') : Before root (pathBelow root loc) (pathBelow root loc') ∨
      Before root (pathBelow root loc') (pathBelow root loc) := by
  have htotal : Std.Trichotomous Text.byteLt := by
    refine ⟨fun a b hab hba => ?_⟩
    by_contra hne
    exact hba (Text.byteLt_of_not_byteLt hab hne)
  rw [Before, Before, namesBelow_pathBelow h, namesBelow_pathBelow h']
  by_contra hnot
  rw [not_or] at hnot
  exact hne ((List.Lex.trichotomous Text.byteLt).trichotomous _ _ hnot.1 hnot.2)

theorem eq_of_pairwise_before (h : files.Pairwise (Before root))
    (h' : files'.Pairwise (Before root)) (hmem : ∀ p, p ∈ files ↔ p ∈ files') :
    files = files' := by
  have hirrefl : Std.Irrefl (Before root) := ⟨Before.irrefl root⟩
  have hantisymm : Std.Antisymm (Before root) := ⟨fun _ _ hab hba => absurd hba hab.asymm⟩
  exact h.eq_of_mem_iff h' hmem

theorem pairwise_before (tree : fs.root.WellFormed) (hdir : fs.node top = .ok (.dir entries))
    (hfiles : candidatesBelow fs globs top = .ok files) : files.Pairwise (Before top) := by
  rw [candidatesBelow_of_node hdir] at hfiles
  obtain rfl := Except.ok.inj hfiles
  have tree' := wellFormed_of_node tree hdir
  refine List.pairwise_map.mpr ((pairwise_walk tree').imp_of_mem fun {a b} ha hb hlex => ?_)
  have hnames {loc : Location} (hmem : loc ∈ walk (rulesBelow fs top) (matchesSome globs)
      (levelsOf (rulesBelow fs top) []) [] (.dir entries)) :
      namesBelow top (pathBelow top loc) = loc := by
    obtain ⟨_, rfl, hselected⟩ := (mem_walk_iff tree').mp hmem
    exact namesBelow_pathBelow (tree'.isName_of_kindAt? hselected.isFile)
  rwa [Before, hnames ha, hnames hb]

/-- A scan of a directory comes to absolute paths below it, in strict order of the names on the way.
Of any two places below the directory, one is before the other. So a scan comes by no file twice,
and in which order it comes by some files depends on nothing but which files they are. -/
theorem items_ordered (tree : fs.root.WellFormed) (hcwd : fs.cwd.isAbsolute = true)
    (htop : fs.absolute root = .ok top) (hdir : fs.node top = .ok (.dir entries))
    (hglobs : Scan.globs registry = .ok globs) :
    (∃ files : List Path, items fs registry root = .ok (files.map .ok) ∧
      (∀ p ∈ files, p.isAbsolute = true ∧
        ∃ names ≠ [], p.components = top.components ++ names.map .name) ∧
      files.Pairwise (Before top) ∧ files.Nodup ∧ files.Pairwise (Apart fs) ∧
      ∀ files' : List Path, files'.Pairwise (Before top) → (∀ p, p ∈ files' ↔ p ∈ files) →
        files' = files) ∧
    ∀ loc loc' : Location, (∀ name ∈ loc, IsName name) → (∀ name ∈ loc', IsName name) →
      loc ≠ loc' → Before top (pathBelow top loc) (pathBelow top loc') ∨
        Before top (pathBelow top loc') (pathBelow top loc) := by
  refine ⟨?_, fun _ _ => before_trichotomy⟩
  obtain ⟨files, hfiles⟩ := exists_candidates_of_node globs hdir
  have habsolute : top.isAbsolute = true :=
    Path.isAbsolute_of_absolute? hcwd (FileSystem.absolute_eq_ok.mp htop)
  have hordered := pairwise_before tree hdir hfiles
  obtain ⟨-, hnodup, hapart⟩ := candidates_comesTo tree hfiles
  refine ⟨files, items_eq_ok.mpr ⟨top, globs, htop, hglobs, hfiles⟩, fun p hp => ?_, hordered,
    hnodup, hapart, fun files' hordered' => eq_of_pairwise_before hordered' hordered⟩
  obtain ⟨names, rfl, hne, hnames⟩ := exists_location_of_candidate tree hdir hfiles hp
  refine ⟨?_, names, hne, components_pathBelow hnames⟩
  rw [isAbsolute_pathBelow hnames (Path.ne_empty_of_isAbsolute habsolute), habsolute]

end

/-- A directory in which one name goes on, with a byte before the slash, where another one ends. -/
def dashed : FileSystem where
  root := .dir [("w", .dir [("r", .dir [
    ("a", .dir [("b.py", .file "x".toUTF8)]), ("a-b.py", .file "x".toUTF8)])])]
  cwd := ⟨"/w"⟩

theorem absolute_dashed : dashed.absolute ⟨"r"⟩ = .ok ⟨"/w/r"⟩ :=
  FileSystem.absolute_eq_ok.mpr (by decide +kernel)

theorem wellFormed_dashed : dashed.root.WellFormed := by decide +kernel

theorem items_dashed : items dashed .builtin ⟨"r"⟩ =
    .ok ([⟨"/w/r/a/b.py"⟩, ⟨"/w/r/a-b.py"⟩].map .ok) :=
  items_builtin wellFormed_dashed absolute_dashed rfl (by decide) (by decide +kernel)

theorem items_ordered_dashed : ∃ files : List Path,
    items dashed .builtin ⟨"r"⟩ = .ok (files.map .ok) ∧
      files = [⟨"/w/r/a/b.py"⟩, ⟨"/w/r/a-b.py"⟩] ∧ files.Pairwise (Before ⟨"/w/r"⟩) ∧
      Text.byteLt "/w/r/a-b.py" "/w/r/a/b.py" ∧
      ∀ files' : List Path, files'.Pairwise (Before ⟨"/w/r"⟩) → (∀ p, p ∈ files' ↔ p ∈ files) →
        files' = files := by
  obtain ⟨gs, hglobs, -⟩ := matchesSome_of_literal Registry.literal_builtin
  obtain ⟨⟨files, hitems, -, hordered, -, -, hunique⟩, -⟩ :=
    items_ordered wellFormed_dashed rfl absolute_dashed rfl hglobs
  exact ⟨files, hitems, items_unique hitems items_dashed, hordered, by decide, hunique⟩

end LicenseHeader.Scan
