import LicenseHeader.Proofs.Patterns
import LicenseHeader.Proofs.Resolution
import LicenseHeader.Proofs.Walk

/-! Where the candidates of a scan are: each path leads to a file of its own, at the root of the
scan or at a location below it that nothing hides or has ignored. -/
namespace LicenseHeader

/-- Whether an error is a failure to read or write something, and no finding. -/
def ScanError.IsFailure (e : ScanError) : Prop := ∀ files, e ≠ .noHeader files

theorem ScanError.isFailure_file (p : Path) (e : FileError) : (file p e).IsFailure := nofun

theorem ScanError.isFailure_walk (e : WalkError) : (walk e).IsFailure := nofun

namespace Scan

/-- Whether two paths lead to different places. -/
def Apart (fs : FileSystem) (p q : Path) : Prop :=
  ∀ loc, fs.LeadsTo p loc → ¬ fs.LeadsTo q loc

/-- How a scan comes to a candidate: the path of a location below the root leads to the same
location below where the root leads. -/
structure ComesTo (fs : FileSystem) (top : Path) (base below : Location) (p : Path) : Prop where
  path : p = pathBelow top below
  leads : fs.LeadsTo p (base ++ below)
  admitted : Admitted (rulesBelow fs top) [] below

section
variable {fs fs' : FileSystem} {registry : Registry} {globs : List (List Glob.Token)}
  {root top p q : Path} {base : Location} {files : List Path} {needsDir : Bool}

theorem leadsTo_congr (h : fs.SameShape fs') {loc : Location} :
    fs.LeadsTo p loc ↔ fs'.LeadsTo p loc := by
  rw [FileSystem.LeadsTo, FileSystem.LeadsTo, FileSystem.locate_congr h]

theorem apart_congr (h : fs.SameShape fs') : Apart fs p q ↔ Apart fs' p q := by
  simp only [Apart, leadsTo_congr h]

theorem Apart.symm (h : Apart fs p q) : Apart fs q p := fun loc hq hp => h loc hp hq

theorem leadsTo_unique {loc loc' : Location} (h : fs.LeadsTo p loc) (h' : fs.LeadsTo p loc') :
    loc = loc' := by
  rw [FileSystem.LeadsTo] at h h'
  cases h.symm.trans h'
  rfl

theorem apart_of_leadsTo {loc loc' : Location} (h : fs.LeadsTo p loc) (h' : fs.LeadsTo q loc')
    (hne : loc ≠ loc') : Apart fs p q :=
  fun _ hp hq => hne ((leadsTo_unique h hp).trans (leadsTo_unique hq h'))

/-- A scan has its candidates, or no way to the root, or no valid patterns. -/
theorem items_cases (fs : FileSystem) (registry : Registry) (root : Path) :
    (∃ e, e.IsFailure ∧ items fs registry root = .error e) ∨
    (∃ e, e.IsFailure ∧ items fs registry root = .ok [.error e]) ∨
    ∃ files : List Path, items fs registry root = .ok (files.map .ok) := by
  rw [items]
  cases fs.absolute root with
  | error e => exact .inl ⟨_, ScanError.isFailure_file root e, rfl⟩
  | ok top =>
    simp only [bind, Except.bind]
    cases Scan.globs registry with
    | error e => exact .inl ⟨_, ScanError.isFailure_walk e, rfl⟩
    | ok globs =>
      simp only
      cases candidatesBelow fs globs top with
      | error e => exact .inr (.inl ⟨_, ScanError.isFailure_walk e, rfl⟩)
      | ok files => exact .inr (.inr ⟨files, rfl⟩)

theorem items_eq_ok : items fs registry root = .ok (files.map .ok) ↔
    ∃ top gs, fs.absolute root = .ok top ∧ Scan.globs registry = .ok gs ∧
      candidatesBelow fs gs top = .ok files := by
  rw [items]
  cases fs.absolute root with
  | error e => simp [bind, Except.bind]
  | ok top =>
    simp only [bind, Except.bind]
    cases Scan.globs registry with
    | error e => simp
    | ok globs =>
      simp only
      cases hc : candidatesBelow fs globs top with
      | error e => cases files <;> simp [hc]
      | ok found =>
        have hinj : found.map (Except.ok : Path → Except ScanError Path) = files.map .ok ↔
            found = files :=
          List.map_inj_right fun _ _ => Except.ok.inj
        simp [hc, hinj]

theorem items_unique {files' : List Path} (h : items fs registry root = .ok (files.map .ok))
    (h' : items fs registry root = .ok (files'.map .ok)) : files = files' := by
  have hmap := Except.ok.inj (h.symm.trans h')
  exact (List.map_inj_right fun _ _ => Except.ok.inj).mp hmap

theorem candidatesBelow_of_node {entries : List (String × Node)}
    (hnode : fs.node top = .ok (.dir entries)) :
    candidatesBelow fs globs top = .ok ((walk (rulesBelow fs top) (matchesSome globs)
      (levelsOf (rulesBelow fs top) []) [] (.dir entries)).map (pathBelow top)) := by
  rw [candidatesBelow, hnode]
  rfl

theorem candidatesBelow_dir {entries : List (String × Node)}
    (hloc : fs.locate top = .ok (.existing base, needsDir))
    (hat : fs.root.at? base = some (.dir entries)) :
    candidatesBelow fs globs top = .ok ((walk (rulesBelow fs top) (matchesSome globs)
      (levelsOf (rulesBelow fs top) []) [] (.dir entries)).map (pathBelow top)) :=
  candidatesBelow_of_node (FileSystem.node_eq_ok.mpr ⟨base, needsDir, hloc, hat, fun _ => rfl⟩)

theorem candidatesBelow_single {n : Node} (hnode : fs.node top = .ok n) (hn : n.isDir = false) :
    candidatesBelow fs globs top = .ok [top] := by
  rw [candidatesBelow, hnode]
  cases n with
  | file content => rfl
  | link target => rfl
  | dir entries => cases hn

/-- In a file system of the same shape, a path leads nowhere for the same reason, or to a node of
the same shape. -/
theorem node_congr (shape : fs'.SameShape fs) (p : Path) :
    (∃ e, fs.node p = .error e ∧ fs'.node p = .error e) ∨
    ∃ n n', fs.node p = .ok n ∧ fs'.node p = .ok n' ∧ n'.SameShape n := by
  rw [FileSystem.node, FileSystem.node, FileSystem.locate_congr shape]
  cases fs.locate p with
  | error e => exact .inl ⟨e, rfl, rfl⟩
  | ok found =>
    obtain ⟨target, needsDir⟩ := found
    cases target with
    | vacant parent name => exact .inl ⟨.notFound, rfl, rfl⟩
    | existing loc =>
      have hkind := shape.root loc
      simp only [bind, Except.bind]
      cases hat : fs.root.at? loc with
      | none =>
        rw [Node.kindAt?, Node.kindAt?, hat, Option.map_none, Option.map_eq_none_iff] at hkind
        rw [hkind]
        exact .inl ⟨.notFound, rfl, rfl⟩
      | some n =>
        rw [Node.kindAt?, Node.kindAt?, hat, Option.map_some, Option.map_eq_some_iff] at hkind
        obtain ⟨n', hat', hkind⟩ := hkind
        have hbelow : n'.SameShape n := by
          intro below
          have h := shape.root (loc ++ below)
          rwa [Node.kindAt?, Node.kindAt?, Node.at?_append, Node.at?_append, hat, hat'] at h
        simp only [hat', Node.isDir_congr hkind]
        by_cases hflag : (needsDir && !n.isDir) = true
        · exact .inl ⟨.notDirectory, if_pos hflag, if_pos hflag⟩
        · exact .inr ⟨n, n', if_neg hflag, if_neg hflag, hbelow⟩

theorem exists_node_of_candidatesBelow (h : candidatesBelow fs globs top = .ok files) :
    ∃ n, fs.node top = .ok n := by
  rw [candidatesBelow] at h
  cases hnode : fs.node top with
  | error e =>
    rw [hnode] at h
    cases h
  | ok n => exact ⟨n, rfl⟩

theorem exists_candidates_of_node {n : Node} (globs : List (List Glob.Token))
    (h : fs.node top = .ok n) : ∃ files, candidatesBelow fs globs top = .ok files := by
  by_cases hn : n.isDir = true
  · obtain ⟨entries, rfl⟩ := Node.isDir_iff.mp hn
    exact ⟨_, candidatesBelow_of_node h⟩
  · exact ⟨_, candidatesBelow_single h (by simpa using hn)⟩

theorem admitted_nil (rules : Location → Ignore.RulePair) (base : Location) :
    Admitted rules base [] where
  visible := by simp
  kept := by simp

theorem wellFormed_at {n : Node} (tree : fs.root.WellFormed) (hat : fs.root.at? base = some n) :
    n.WellFormed := by
  intro loc names hk
  apply tree (base ++ loc) names
  rw [Node.kindAt?, Node.at?_append, hat]
  exact hk

theorem wellFormed_of_node {n : Node} (tree : fs.root.WellFormed) (hnode : fs.node top = .ok n) :
    n.WellFormed := by
  obtain ⟨_, _, _, hat, -⟩ := FileSystem.node_eq_ok.mp hnode
  exact wellFormed_at tree hat

/-- The candidates below a directory that lists its names in order, said without patterns. -/
theorem items_of_literal {entries : List (String × Node)} (literal : registry.Literal)
    (tree : fs.root.WellFormed) (htop : fs.absolute root = .ok top)
    (hdir : fs.node top = .ok (.dir entries)) (hnames : (entries.map (·.1)).Pairwise Text.byteLt)
    (hfiles : (entries.flatMap (walkEntry (rulesBelow fs top) registry.registers
      (levelsOf (rulesBelow fs top) []) [])).map (pathBelow top) = files) :
    items fs registry root = .ok (files.map .ok) := by
  obtain ⟨gs, hgs, hmatches⟩ := matchesSome_of_literal literal
  have hselects (name : String) (hname : IsName name) (hvisible : isHidden name = false) :
      matchesSome gs name = registry.registers name := by
    rw [Bool.eq_iff_iff, hmatches name hname.no_slash hvisible, Registry.registers_iff]
  refine items_eq_ok.mpr ⟨top, gs, htop, hgs, ?_⟩
  rw [candidatesBelow_of_node hdir, walk_congr_selects (wellFormed_of_node tree hdir) hselects,
    walk_of_pairwise hnames, hfiles]

theorem items_builtin {entries : List (String × Node)} (tree : fs.root.WellFormed)
    (htop : fs.absolute root = .ok top) (hdir : fs.node top = .ok (.dir entries))
    (hnames : (entries.map (·.1)).Pairwise Text.byteLt)
    (hfiles : (entries.flatMap (walkEntry (rulesBelow fs top)
      (fun name => (Path.nameExtension? name).any fun extension =>
        (Style.builtin? extension).isSome)
      (levelsOf (rulesBelow fs top) []) [])).map (pathBelow top) = files) :
    items fs .builtin root = .ok (files.map .ok) :=
  items_of_literal Registry.literal_builtin tree htop hdir hnames
    (by rwa [Registry.registers_builtin])

/-- The candidates below a directory are at the locations that the walk selects. -/
theorem mem_candidates_iff {entries : List (String × Node)} (tree : fs.root.WellFormed)
    (hdir : fs.node top = .ok (.dir entries))
    (hfiles : candidatesBelow fs globs top = .ok files) :
    p ∈ files ↔ ∃ below, p = pathBelow top below ∧
      Selected (rulesBelow fs top) (matchesSome globs) [] (.dir entries) below := by
  rw [candidatesBelow_of_node hdir] at hfiles
  obtain rfl := Except.ok.inj hfiles
  simp only [List.mem_map, mem_walk_iff (wellFormed_of_node tree hdir), List.nil_append]
  constructor
  · rintro ⟨below, ⟨_, rfl, h⟩, rfl⟩
    exact ⟨below, rfl, h⟩
  · rintro ⟨below, rfl, h⟩
    exact ⟨below, ⟨below, rfl, h⟩, rfl⟩

theorem comesTo_of_mem_walk {entries : List (String × Node)} {loc : Location}
    (tree : fs.root.WellFormed) (hloc : fs.locate top = .ok (.existing base, needsDir))
    (hat : fs.root.at? base = some (.dir entries))
    (h : loc ∈ walk (rulesBelow fs top) (matchesSome globs) (levelsOf (rulesBelow fs top) []) []
      (.dir entries)) :
    ComesTo fs top base loc (pathBelow top loc) := by
  obtain ⟨_, rfl, hsel⟩ := (mem_walk_iff (wellFormed_at tree hat)).mp h
  have hk : fs.root.kindAt? (base ++ loc) = some .file := by
    rw [Node.kindAt?, Node.at?_append, hat]
    exact hsel.isFile
  exact ⟨rfl, fs.leadsTo_pathBelow tree hloc hsel.ne_nil hk (by simp), hsel.toAdmitted⟩

theorem ComesTo.apart {below below' : Location} (h : ComesTo fs top base below p)
    (h' : ComesTo fs top base below' q) (hne : below ≠ below') : Apart fs p q :=
  apart_of_leadsTo h.leads h'.leads fun heq => hne (List.append_cancel_left heq)

/-- Each candidate is at a place of its own, at or below the place of the root. -/
theorem candidates_comesTo (tree : fs.root.WellFormed)
    (h : candidatesBelow fs globs top = .ok files) :
    (∃ base needsDir, fs.locate top = .ok (.existing base, needsDir) ∧
      ∀ p ∈ files, ∃ below, ComesTo fs top base below p) ∧
      files.Nodup ∧ files.Pairwise (Apart fs) := by
  obtain ⟨n, hnode⟩ := exists_node_of_candidatesBelow h
  obtain ⟨base, needsDir, hloc, hat, hdir⟩ := FileSystem.node_eq_ok.mp hnode
  by_cases hn : n.isDir = true
  · obtain ⟨entries, rfl⟩ := Node.isDir_iff.mp hn
    rw [candidatesBelow_dir hloc hat] at h
    obtain rfl := Except.ok.inj h
    have hcomes : ∀ loc ∈ walk (rulesBelow fs top) (matchesSome globs)
        (levelsOf (rulesBelow fs top) []) [] (.dir entries),
        ComesTo fs top base loc (pathBelow top loc) :=
      fun loc hmem => comesTo_of_mem_walk tree hloc hat hmem
    have hapart := (nodup_walk (wellFormed_at tree hat)).imp_of_mem
      fun ha hb hne => (hcomes _ ha).apart (hcomes _ hb) hne
    refine ⟨⟨base, needsDir, hloc, fun p hp => ?_⟩, ?_, List.pairwise_map.mpr hapart⟩
    · obtain ⟨loc, hmem, rfl⟩ := List.mem_map.mp hp
      exact ⟨loc, hcomes loc hmem⟩
    · -- a path that is there twice would lead to one place
      refine List.pairwise_map.mpr (hapart.imp_of_mem ?_)
      intro a b ha _ hab heq
      exact hab _ (hcomes a ha).leads (heq ▸ (hcomes a ha).leads)
  · rw [candidatesBelow_single hnode (by simpa using hn)] at h
    obtain rfl := Except.ok.inj h
    have hflag : needsDir = false := by simpa [hn] using hdir
    subst hflag
    refine ⟨⟨base, false, hloc, fun p hp => ?_⟩, by simp, List.pairwise_singleton ..⟩
    obtain rfl := List.mem_singleton.mp hp
    exact ⟨[], rfl, by rwa [List.append_nil], admitted_nil _ _⟩

end
end Scan
end LicenseHeader
