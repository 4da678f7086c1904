import LicenseHeader.Proofs.IgnoreFiles
import LicenseHeader.Proofs.Walk
import Mathlib.Data.List.Sort

/-! Where a walk comes to, and what its selection owes to the ignore rules there. -/
namespace LicenseHeader.Scan

open Ignore (BothStricter RulePair isIgnored)

/-- A directory that a walk comes to. -/
structure Entered (rules : Location → RulePair) (n : Node) (dir : Location) : Prop where
  isDir : ∃ names, n.kindAt? dir = some (.dir names)
  visible : ∀ name ∈ dir, isHidden name = false
  kept : ∀ above name rest, dir = above ++ name :: rest →
    isIgnored (levelsOf rules above) name true = false

section
variable {rules rules' : Location → RulePair} {selects : String → Bool} {n n' : Node}
  {dir below : Location} {name : String}

theorem Entered.of_isPrefix (h : Entered rules n dir) {above : Location} (hp : above <+: dir) :
    Entered rules n above := by
  obtain ⟨rest, rfl⟩ := hp
  refine ⟨?_, fun name hname => h.visible name (List.mem_append_left rest hname), ?_⟩
  · cases rest with
    | nil => simpa using h.isDir
    | cons name rest =>
      obtain ⟨names, hnames⟩ := h.isDir
      exact (Node.exists_dir_of_kindAt? hnames).imp fun _ h => h.1
  · rintro before name after rfl
    exact h.kept before name (after ++ rest) (by simp)

theorem entered_nil_iff : Entered rules n [] ↔ ∃ names, n.kindAt? [] = some (.dir names) :=
  ⟨fun h => h.isDir, fun h => ⟨h, by simp, by simp⟩⟩

theorem entered_concat_iff : Entered rules n (dir ++ [name]) ↔
    Entered rules n dir ∧ (∃ names, n.kindAt? (dir ++ [name]) = some (.dir names)) ∧
      isHidden name = false ∧ isIgnored (levelsOf rules dir) name true = false := by
  constructor
  · intro h
    exact ⟨h.of_isPrefix (List.prefix_append dir [name]), h.isDir, h.visible name (by simp),
      h.kept dir name [] rfl⟩
  · rintro ⟨h, hdir, hvisible, hkept⟩
    refine ⟨hdir, by simpa [or_imp, forall_and, hvisible] using h.visible, ?_⟩
    intro above name' rest heq
    -- the directory asked about is the last one or one on the way to it
    rcases List.eq_nil_or_concat rest with rfl | ⟨rest, last, rfl⟩
    · obtain ⟨rfl, rfl⟩ := List.append_inj' heq rfl |>.imp_right List.singleton_inj.mp
      exact hkept
    · rw [List.concat_eq_append, ← List.cons_append, ← List.append_assoc] at heq
      exact h.kept above name' rest (List.append_inj_left' heq rfl)

theorem Selected.entered {rest : Location}
    (h : Selected rules selects [] n (dir ++ name :: rest)) : Entered rules n dir where
  isDir := (Node.exists_dir_of_kindAt? h.isFile).imp fun _ h => h.1
  visible := fun s hs => h.visible s (List.mem_append_left _ hs)
  kept := by
    rintro above s after rfl
    have hkept := h.kept above s (after ++ name :: rest) (by simp)
    have hrest : (!(after ++ name :: rest).isEmpty) = true := by simp
    rwa [hrest] at hkept

theorem kept_of_stricter {isDir : Bool}
    (strict : ∀ above, above <+: dir → BothStricter (rules' above) (rules above))
    (h : isIgnored (levelsOf rules' dir) name isDir = false) :
    isIgnored (levelsOf rules dir) name isDir = false := by
  rw [levelsOf, ← List.map_reverse] at h ⊢
  by_contra hignored
  rw [Bool.not_eq_false] at hignored
  have hstrict : ∀ above ∈ dir.inits.reverse, BothStricter (rules' above) (rules above) :=
    fun above hmem => strict above ((List.mem_inits above dir).mp (List.mem_reverse.mp hmem))
  rw [Ignore.isIgnored_of_stricter hstrict hignored] at h
  cases h

/-- Rules that are stricter wherever a walk comes to take it nowhere else. -/
theorem entered_of_stricter (shape : n'.SameShape n)
    (strict : ∀ dir, Entered rules n dir → BothStricter (rules' dir) (rules dir))
    (h : Entered rules' n' dir) : Entered rules n dir := by
  induction dir using List.reverseRecOn with
  | nil =>
    rw [entered_nil_iff, shape []] at h
    exact entered_nil_iff.mpr h
  | append_singleton dir name ih =>
    obtain ⟨hdir, hkind, hvisible, hkept⟩ := entered_concat_iff.mp h
    -- the directories above are come to as well, so the rules that count there are stricter
    have hdir := ih hdir
    exact entered_concat_iff.mpr ⟨hdir, shape (dir ++ [name]) ▸ hkind, hvisible,
      kept_of_stricter (fun above hp => strict above (hdir.of_isPrefix hp)) hkept⟩

theorem Selected.of_stricter (h : Selected rules' selects [] n' below) (shape : n'.SameShape n)
    (strict : ∀ dir, Entered rules n dir → BothStricter (rules' dir) (rules dir)) :
    Selected rules selects [] n below where
  visible := h.visible
  kept := by
    rintro dir name rest rfl
    have hdir := entered_of_stricter shape strict h.entered
    exact kept_of_stricter (fun above hp => strict above (hdir.of_isPrefix hp))
      (h.kept dir name rest rfl)
  isFile := (shape below).symm.trans h.isFile
  selects := h.selects

instance : Std.Asymm Text.byteLt :=
  ⟨fun _ _ hab hba => List.lt_irrefl _ (Text.byteLt_trans hab hba)⟩

/-- Walks with the same rules wherever one of them comes to are the same. -/
theorem walk_congr (tree : n.WellFormed) (shape : n'.SameShape n)
    (agree : ∀ dir, Entered rules n dir → rules' dir = rules dir) :
    walk rules' selects (levelsOf rules' []) [] n' =
      walk rules selects (levelsOf rules []) [] n := by
  have strict (dir : Location) (h : Entered rules n dir) : BothStricter (rules' dir) (rules dir) :=
    .of_eq (agree dir h)
  have strict' (dir : Location) (h : Entered rules' n' dir) :
      BothStricter (rules dir) (rules' dir) :=
    .of_eq (agree dir (entered_of_stricter shape strict h)).symm
  have tree' := tree.of_sameShape shape.symm
  -- a walk is in strict order, so what it selects determines it
  refine (pairwise_walk tree').eq_of_mem_iff (pairwise_walk tree) fun loc => ?_
  rw [mem_walk_iff tree', mem_walk_iff tree]
  exact exists_congr fun below => and_congr_right fun _ =>
    ⟨fun h => h.of_stricter shape strict, fun h => h.of_stricter shape.symm strict'⟩

end

end LicenseHeader.Scan
