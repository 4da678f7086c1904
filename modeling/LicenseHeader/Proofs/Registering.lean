import LicenseHeader.Proofs.FileName
import LicenseHeader.Proofs.Patterns
import LicenseHeader.Proofs.Shown

/-! One more extension in a registry. What a scan passes over or enters does not depend on the
extensions, so with one more of them it comes to the same files and to those that the pattern of the
new one matches. -/
namespace LicenseHeader.Scan

section
variable {registry : Registry} {extension : String} {style : Style} {fs : FileSystem}
  {root top : Path} {n : Node} {globs globs' : List (List Glob.Token)} {files files' : List Path}

/-- The patterns of a registry with one more extension match what that of the extension matches, and
what they matched before. -/
theorem matchesSome_insert (h : Scan.globs (registry.insert extension style) = .ok globs') :
    ∃ globs, Scan.globs registry = .ok globs ∧ ∀ name,
      matchesSome globs' name = true ↔
        GlobMatches extension name ∨ matchesSome globs name = true := by
  rcases globs_cases (registry.insert extension style) with
    ⟨gs', hgs', hvalid, hmatches'⟩ | ⟨_, _, _, _, hinvalid⟩
  · obtain rfl := Except.ok.inj (hgs'.symm.trans h)
    rcases globs_cases registry with ⟨globs, hglobs, -, hmatches⟩ | ⟨other, hother, _, hcause, -⟩
    · refine ⟨globs, hglobs, fun name => ?_⟩
      rw [hmatches', hmatches]
      simp only [Registry.mem_extensions_insert, or_and_right, exists_or, exists_eq_left]
    · obtain ⟨g, hg⟩ := hvalid other (Registry.mem_extensions_insert.mpr (.inr hother))
      cases hg.symm.trans hcause
  · cases hinvalid.symm.trans h

theorem globs_insert_of_mem (h : extension ∈ registry.extensions) :
    Scan.globs (registry.insert extension style) = Scan.globs registry := by
  rw [globs_eq, globs_eq, Registry.extensions_insert_of_mem h]

/-- With patterns that match more names, a scan comes to the same files in the same order and to
some more between them, whose names the patterns did not match. -/
theorem candidates_sublist (tree : fs.root.WellFormed)
    (hsub : ∀ name, matchesSome globs name = true → matchesSome globs' name = true)
    (hfiles : candidatesBelow fs globs top = .ok files)
    (hfiles' : candidatesBelow fs globs' top = .ok files') :
    files.Sublist files' ∧ ∀ p ∈ files', p ∉ files → ∃ name, p.fileName? = some name ∧
      matchesSome globs' name = true ∧ matchesSome globs name = false := by
  obtain ⟨n, hnode⟩ := exists_node_of_candidatesBelow hfiles
  by_cases hn : n.isDir = true
  · obtain ⟨entries, rfl⟩ := Node.isDir_iff.mp hn
    constructor
    · rw [candidatesBelow_of_node hnode] at hfiles hfiles'
      obtain rfl := Except.ok.inj hfiles
      obtain rfl := Except.ok.inj hfiles'
      exact (walk_sublist hsub).map _
    · intro p hp hnew
      obtain ⟨_, rfl, hselected⟩ := (mem_candidates_iff tree hnode hfiles').mp hp
      obtain ⟨dir, name, rfl, hmatch'⟩ := hselected.selects
      have hname : IsName name :=
        (wellFormed_of_node tree hnode).isName_of_kindAt? hselected.isFile name (by simp)
      refine ⟨name, ?_, hmatch', ?_⟩
      · rw [pathBelow_concat, Path.fileName?_join _ hname.isStep]
      · -- if the patterns had matched the name, the scan would have come by the file
        by_contra hmatch
        exact hnew ((mem_candidates_iff tree hnode hfiles).mpr ⟨dir ++ [name], rfl,
          hselected.toAdmitted, hselected.isFile, dir, name, rfl, by simpa using hmatch⟩)
  · have hsingle : n.isDir = false := by simpa using hn
    obtain rfl := Except.ok.inj ((candidatesBelow_single hnode hsingle).symm.trans hfiles)
    obtain rfl := Except.ok.inj ((candidatesBelow_single hnode hsingle).symm.trans hfiles')
    exact ⟨.refl _, fun p hp hnew => absurd hp hnew⟩

/-- With one more extension in the registry, a scan comes to the same files in the same order and to
some more between them, whose names the pattern of the extension matches. If the extension was
registered before, there are no more. A path is looked up as before, unless it has the extension:
then it has the new style. -/
theorem items_insert (tree : fs.root.WellFormed) (htop : fs.absolute root = .ok top)
    (hnode : fs.node top = .ok n)
    (hglobs' : Scan.globs (registry.insert extension style) = .ok globs') :
    ∃ files files' : List Path, items fs registry root = .ok (files.map .ok) ∧
      items fs (registry.insert extension style) root = .ok (files'.map .ok) ∧
      files.Sublist files' ∧ files'.Nodup ∧
      (∀ p ∈ files', p ∉ files → ∃ name, p.fileName? = some name ∧ GlobMatches extension name) ∧
      (extension ∈ registry.extensions → files' = files) ∧
      ∀ p, (registry.insert extension style).lookupPath p =
        if p.extension? = some extension then some (extension, style)
        else registry.lookupPath p := by
  obtain ⟨globs, hglobs, hmatches⟩ := matchesSome_insert hglobs'
  obtain ⟨files, hfiles⟩ := exists_candidates_of_node globs hnode
  obtain ⟨files', hfiles'⟩ := exists_candidates_of_node globs' hnode
  obtain ⟨hsublist, hadded⟩ :=
    candidates_sublist tree (fun name h => (hmatches name).mpr (.inr h)) hfiles hfiles'
  refine ⟨files, files', items_eq_ok.mpr ⟨top, globs, htop, hglobs, hfiles⟩,
    items_eq_ok.mpr ⟨top, globs', htop, hglobs', hfiles'⟩, hsublist,
    (candidates_comesTo tree hfiles').2.1, fun p hp hnew => ?_, fun hmem => ?_,
    registry.lookupPath_insert extension style⟩
  · obtain ⟨name, hname, hmatch', hmatch⟩ := hadded p hp hnew
    refine ⟨name, hname, ((hmatches name).mp hmatch').resolve_right ?_⟩
    rw [hmatch]
    exact Bool.false_ne_true
  · obtain rfl := Except.ok.inj (hglobs.symm.trans ((globs_insert_of_mem hmem).symm.trans hglobs'))
    exact Except.ok.inj (hfiles'.symm.trans hfiles)

end

/-- A directory with files of two extensions, one of them without a style so far. One file is
ignored and one is hidden. -/
def mixed : FileSystem where
  root := .dir [(".gitignore", .file "skip.new\n".toUTF8), (".h.new", .file "".toUTF8),
    ("a.py", .file "".toUTF8), ("d", .dir [("c.new", .file "".toUTF8)]),
    ("skip.new", .file "".toUTF8)]
  cwd := ⟨"/"⟩

theorem wellFormed_mixed : mixed.root.WellFormed := by decide +kernel

theorem literal_insert_new : (Registry.builtin.insert "new" (.line "% ")).Literal :=
  Registry.literal_builtin.insert (by decide) (by decide) _

theorem items_mixed : items mixed .builtin ⟨"/"⟩ = .ok ([⟨"/a.py"⟩].map .ok) ∧
    items mixed (Registry.builtin.insert "new" (.line "% ")) ⟨"/"⟩ =
      .ok ([⟨"/a.py"⟩, ⟨"/d/c.new"⟩].map .ok) := by
  have htop : mixed.absolute ⟨"/"⟩ = .ok ⟨"/"⟩ := absolute_root rfl
  constructor
  · exact items_builtin wellFormed_mixed htop rfl (by decide) (by decide +kernel)
  · refine items_of_literal literal_insert_new wellFormed_mixed htop rfl (by decide) ?_
    rw [Registry.registers_insert, Registry.registers_builtin]
    decide +kernel

theorem items_insert_mixed : ∃ files files' : List Path,
    items mixed .builtin ⟨"/"⟩ = .ok (files.map .ok) ∧
      items mixed (Registry.builtin.insert "new" (.line "% ")) ⟨"/"⟩ = .ok (files'.map .ok) ∧
      files.Sublist files' ∧ files = [⟨"/a.py"⟩] ∧ files' = [⟨"/a.py"⟩, ⟨"/d/c.new"⟩] ∧
      ∃ name, Path.fileName? ⟨"/d/c.new"⟩ = some name ∧ GlobMatches "new" name := by
  obtain ⟨gs, hglobs, -⟩ := matchesSome_of_literal literal_insert_new
  obtain ⟨files, files', hitems, hitems', hsublist, -, hadded, -⟩ :=
    items_insert wellFormed_mixed (absolute_root rfl) rfl hglobs
  have hsame := items_unique hitems items_mixed.1
  have hsame' := items_unique hitems' items_mixed.2
  refine ⟨files, files', hitems, hitems', hsublist, hsame, hsame', hadded _ ?_ ?_⟩
  · rw [hsame']
    decide
  · rw [hsame]
    decide

end LicenseHeader.Scan
