import LicenseHeader.Proofs.Tree
import LicenseHeader.Scan.Candidates
import Mathlib.Data.List.Infix
import Mathlib.Data.List.Lex

/-! What a walk selects, said of one location at a time, and in which order. -/
namespace LicenseHeader.Scan

open Ignore (Level RulePair isIgnored descend)

/-- The ignore rules that count in a directory, its own first. -/
def levelsOf (rules : Location → RulePair) (dir : Location) : List Level :=
  (dir.inits.map fun above => ⟨rules above, dir.drop above.length⟩).reverse

/-- Nothing on the way from a directory down to a location is hidden or ignored. `base` is where
the directory is. -/
structure Admitted (rules : Location → RulePair) (base below : Location) : Prop where
  visible : ∀ name ∈ below, isHidden name = false
  kept : ∀ dir name rest, below = dir ++ name :: rest →
    isIgnored (levelsOf rules (base ++ dir)) name (!rest.isEmpty) = false

/-- A location below a directory where a walk of that directory finds a file and selects it. -/
structure Selected (rules : Location → RulePair) (selects : String → Bool) (base : Location)
    (n : Node) (below : Location) : Prop extends Admitted rules base below where
  isFile : n.kindAt? below = some .file
  selects : ∃ dir name, below = dir ++ [name] ∧ selects name = true

def walkEntry (rules : Location → RulePair) (selects : String → Bool) (levels : List Level)
    (base : Location) (e : String × Node) : List Location :=
  if isHidden e.1 || isIgnored levels e.1 e.2.isDir then []
  else
    match e.2 with
    | .file _ => if selects e.1 then [base ++ [e.1]] else []
    | n => walk rules selects (descend levels e.1 (rules (base ++ [e.1]))) (base ++ [e.1]) n

section
variable {rules : Location → RulePair} {selects selects' : String → Bool} {levels : List Level}
  {base below loc : Location} {n : Node}

theorem levelsOf_concat (dir : Location) (name : String) :
    levelsOf rules (dir ++ [name]) =
      descend (levelsOf rules dir) name (rules (dir ++ [name])) := by
  have habove : ∀ above ∈ dir.inits,
      (⟨rules above, (dir ++ [name]).drop above.length⟩ : Level) =
        ⟨rules above, dir.drop above.length ++ [name]⟩ := by
    intro above hmem
    have hlen := ((List.mem_inits above dir).mp hmem).length_le
    rw [List.drop_append_of_le_length hlen]
  rw [levelsOf, List.inits_append, descend, levelsOf, List.map_append, List.reverse_append,
    List.map_congr_left habove]
  simp [Function.comp_def]

private theorem walkEntries_eq_map (entries : List (String × Node)) :
    walkEntries rules selects levels base entries =
      entries.map fun e => (e.1, walkEntry rules selects levels base e) := by
  induction entries with
  | nil => rfl
  | cons e rest ih =>
    obtain ⟨name, n⟩ := e
    rw [walkEntries.eq_def, List.map_cons, ← ih]
    cases n <;> rfl

theorem walk_dir (entries : List (String × Node)) :
    walk rules selects levels base (.dir entries) =
      (sortByName entries).flatMap (walkEntry rules selects levels base) := by
  rw [walk, walkEntries_eq_map, sortByName, sortByName,
    ← List.map_mergeSort (r := fun a b => !decide (Text.byteLt b.1 a.1)) fun _ _ _ _ => rfl,
    List.flatMap_map]

private theorem mem_walk_dir {entries : List (String × Node)} :
    loc ∈ walk rules selects levels base (.dir entries) ↔
      ∃ e ∈ entries, loc ∈ walkEntry rules selects levels base e := by
  rw [walk_dir, List.mem_flatMap, sortByName]
  simp only [List.mem_mergeSort]

theorem Selected.ne_nil (h : Selected rules selects base n below) : below ≠ [] := by
  obtain ⟨dir, name, rfl, -⟩ := h.selects
  simp

private theorem kindAt?_dir_cons {entries : List (String × Node)} {name : String} {c : Node}
    (hc : entries.lookup name = some c) (rest : Location) :
    (Node.dir entries).kindAt? (name :: rest) = c.kindAt? rest := by
  rw [Node.kindAt?, Node.at?_dir_cons, hc]
  rfl

private theorem selected_singleton_iff {entries : List (String × Node)} {name : String} {c : Node}
    (hc : entries.lookup name = some c) :
    Selected rules selects base (.dir entries) [name] ↔
      c.kind = .file ∧ isHidden name = false ∧
        isIgnored (levelsOf rules base) name false = false ∧ selects name = true := by
  have hkind : (Node.dir entries).kindAt? [name] = some c.kind := kindAt?_dir_cons hc []
  constructor
  · intro h
    obtain ⟨dir, last, hlast, hsel⟩ := h.selects
    obtain rfl : name = last := by simpa using congrArg List.getLast? hlast
    exact ⟨Option.some.inj (hkind.symm.trans h.isFile), h.visible name List.mem_cons_self,
      by simpa using h.kept [] name [] rfl, hsel⟩
  · rintro ⟨hfile, hvis, hkept, hsel⟩
    refine ⟨⟨by simpa using hvis, fun dir name' rest heq => ?_⟩, by rw [hkind, hfile],
      [], name, rfl, hsel⟩
    cases dir with
    | nil =>
      obtain ⟨rfl, rfl⟩ := List.cons.inj heq
      simpa using hkept
    | cons d dir => simp at heq

private theorem selected_cons_iff {entries : List (String × Node)} {name : String} {c : Node}
    (hc : entries.lookup name = some c) (hne : below ≠ []) :
    Selected rules selects base (.dir entries) (name :: below) ↔
      isHidden name = false ∧ isIgnored (levelsOf rules base) name true = false ∧
        Selected rules selects (base ++ [name]) c below := by
  have hfull : (!below.isEmpty) = true := by simpa using hne
  constructor
  · intro h
    refine ⟨h.visible name List.mem_cons_self, by simpa [hfull] using h.kept [] name below rfl,
      ⟨fun x hx => h.visible x (List.mem_cons_of_mem _ hx), fun dir name' rest heq => ?_⟩,
      (kindAt?_dir_cons hc below).symm.trans h.isFile, ?_⟩
    · rw [List.append_assoc, List.singleton_append]
      exact h.kept (name :: dir) name' rest (by rw [heq]; rfl)
    · obtain ⟨dir, last, hlast, hsel⟩ := h.selects
      cases dir with
      | nil => exact absurd (List.cons.inj hlast).2 hne
      | cons d dir => exact ⟨dir, last, (List.cons.inj hlast).2, hsel⟩
  · rintro ⟨hvis, hkept, h⟩
    obtain ⟨dir, last, hlast, hsel⟩ := h.selects
    refine ⟨⟨List.forall_mem_cons.mpr ⟨hvis, h.visible⟩, fun dir' name' rest heq => ?_⟩,
      (kindAt?_dir_cons hc below).trans h.isFile, name :: dir, last, by rw [hlast]; rfl, hsel⟩
    cases dir' with
    | nil =>
      obtain ⟨rfl, rfl⟩ := List.cons.inj heq
      simpa [hfull] using hkept
    | cons d dir' =>
      obtain ⟨hd, heq⟩ := List.cons.inj heq
      have hbase : base ++ d :: dir' = (base ++ [name]) ++ dir' := by simp [hd]
      rw [hbase]
      exact h.kept dir' name' rest heq

private theorem exists_dir_of_selected (h : Selected rules selects base n below) :
    ∃ entries name c rest, n = .dir entries ∧ below = name :: rest ∧
      entries.lookup name = some c := by
  obtain ⟨name, rest, rfl⟩ := List.exists_cons_of_ne_nil h.ne_nil
  have hfile := h.isFile
  cases n with
  | file content => cases hfile
  | link target => cases hfile
  | dir entries =>
    cases hc : entries.lookup name with
    | none =>
      rw [Node.kindAt?, Node.at?_dir_cons, hc] at hfile
      cases hfile
    | some c => exact ⟨entries, name, c, rest, rfl, rfl, hc⟩

private theorem not_selected_of_leaf (hn : n.isDir = false) (below : Location) :
    ¬ Selected rules selects base n below := by
  intro h
  obtain ⟨entries, _, _, _, rfl, -⟩ := exists_dir_of_selected h
  cases hn

private theorem exists_selected_leaf_iff {entries : List (String × Node)} {name : String} {c : Node}
    (hc : entries.lookup name = some c) (hleaf : c.isDir = false) :
    (∃ rest, loc = base ++ name :: rest ∧
        Selected rules selects base (.dir entries) (name :: rest)) ↔
      loc = base ++ [name] ∧ c.kind = .file ∧ isHidden name = false ∧
        isIgnored (levelsOf rules base) name false = false ∧ selects name = true := by
  rw [← selected_singleton_iff hc]
  constructor
  · rintro ⟨rest, hloc, h⟩
    by_cases hrest : rest = []
    · subst rest
      exact ⟨hloc, h⟩
    · exact absurd ((selected_cons_iff hc hrest).mp h).2.2 (not_selected_of_leaf hleaf rest)
  · rintro ⟨hloc, h⟩
    exact ⟨[], hloc, h⟩

private theorem exists_selected_dir_iff {entries inner : List (String × Node)} {name : String}
    (hc : entries.lookup name = some (.dir inner)) :
    (∃ rest, loc = base ++ name :: rest ∧
        Selected rules selects base (.dir entries) (name :: rest)) ↔
      isHidden name = false ∧ isIgnored (levelsOf rules base) name true = false ∧
        ∃ below, loc = (base ++ [name]) ++ below ∧
          Selected rules selects (base ++ [name]) (.dir inner) below := by
  constructor
  · rintro ⟨rest, hloc, h⟩
    have hrest : rest ≠ [] := by
      rintro rfl
      cases ((selected_singleton_iff hc).mp h).1
    obtain ⟨hvis, hkept, h⟩ := (selected_cons_iff hc hrest).mp h
    exact ⟨hvis, hkept, rest, by rw [hloc]; simp, h⟩
  · rintro ⟨hvis, hkept, below, hloc, h⟩
    exact ⟨below, by rw [hloc]; simp, (selected_cons_iff hc h.ne_nil).mpr ⟨hvis, hkept, h⟩⟩

private theorem mem_walkEntry_dir_iff {name : String} {inner : List (String × Node)} :
    loc ∈ walkEntry rules selects (levelsOf rules base) base (name, .dir inner) ↔
      isHidden name = false ∧ isIgnored (levelsOf rules base) name true = false ∧
        loc ∈ walk rules selects (levelsOf rules (base ++ [name])) (base ++ [name])
          (.dir inner) := by
  rw [levelsOf_concat]
  by_cases hout : isHidden name = true ∨ isIgnored (levelsOf rules base) name true = true
  · have hempty : walkEntry rules selects (levelsOf rules base) base (name, .dir inner) = [] :=
      if_pos (by simpa [Node.isDir] using hout)
    rw [hempty]
    constructor
    · intro h
      exact absurd h List.not_mem_nil
    · rintro ⟨hvis, hkept, -⟩
      simp [hvis, hkept] at hout
  · have hfull : walkEntry rules selects (levelsOf rules base) base (name, .dir inner) =
        walk rules selects (descend (levelsOf rules base) name (rules (base ++ [name])))
          (base ++ [name]) (.dir inner) :=
      if_neg (by simpa [Node.isDir] using hout)
    rw [hfull]
    rw [not_or, Bool.not_eq_true, Bool.not_eq_true] at hout
    exact ⟨fun h => ⟨hout.1, hout.2, h⟩, fun h => h.2.2⟩

private theorem mem_walkEntry_iff {entries : List (String × Node)} {name : String} {c : Node}
    (hc : entries.lookup name = some c)
    (ih : loc ∈ walk rules selects (levelsOf rules (base ++ [name])) (base ++ [name]) c ↔
      ∃ below, loc = (base ++ [name]) ++ below ∧ Selected rules selects (base ++ [name]) c below) :
    loc ∈ walkEntry rules selects (levelsOf rules base) base (name, c) ↔
      ∃ rest, loc = base ++ name :: rest ∧
        Selected rules selects base (.dir entries) (name :: rest) := by
  cases c with
  | file content =>
    rw [exists_selected_leaf_iff hc rfl]
    simp only [walkEntry, Node.isDir, Node.kind]
    cases isHidden name <;> cases isIgnored (levelsOf rules base) name false <;>
      cases selects name <;> simp
  | link target =>
    rw [exists_selected_leaf_iff hc rfl]
    simp [walkEntry, walk, Node.kind]
  | dir inner => rw [mem_walkEntry_dir_iff, ih, exists_selected_dir_iff hc]

/-- A walk selects exactly the files that no name on the way hides or has ignored. -/
theorem mem_walk_iff (tree : n.WellFormed) :
    loc ∈ walk rules selects (levelsOf rules base) base n ↔
      ∃ below, loc = base ++ below ∧ Selected rules selects base n below := by
  induction n using Node.induct generalizing base with
  | file content =>
    refine ⟨fun h => by simp [walk] at h, ?_⟩
    rintro ⟨below, -, h⟩
    exact absurd h (not_selected_of_leaf rfl below)
  | link target =>
    refine ⟨fun h => by simp [walk] at h, ?_⟩
    rintro ⟨below, -, h⟩
    exact absurd h (not_selected_of_leaf rfl below)
  | dir entries ih =>
    obtain ⟨hnodup, hchild⟩ := tree.child
    have hentry {name : String} {c : Node} (he : (name, c) ∈ entries) :
        loc ∈ walkEntry rules selects (levelsOf rules base) base (name, c) ↔
          ∃ rest, loc = base ++ name :: rest ∧
            Selected rules selects base (.dir entries) (name :: rest) :=
      mem_walkEntry_iff (lookup_eq_some_of_mem hnodup he) (ih _ he (hchild _ he).2)
    rw [mem_walk_dir]
    constructor
    · rintro ⟨⟨name, c⟩, he, hloc⟩
      obtain ⟨rest, hloc, h⟩ := (hentry he).mp hloc
      exact ⟨name :: rest, hloc, h⟩
    · rintro ⟨below, rfl, h⟩
      obtain ⟨_, name, c, rest, heq, rfl, hc⟩ := exists_dir_of_selected h
      obtain rfl := Node.dir.inj heq
      have he := mem_of_lookup_eq_some hc
      exact ⟨(name, c), he, (hentry he).mpr ⟨rest, rfl, h⟩⟩

private theorem not_byteLt_trans {a b c : String} (hab : ¬ Text.byteLt b a)
    (hbc : ¬ Text.byteLt c b) : ¬ Text.byteLt c a :=
  List.not_lt.mpr (List.le_trans (List.not_lt.mp hab) (List.not_lt.mp hbc))

theorem pairwise_sortByName {α : Type} {xs : List (String × α)} (h : (xs.map (·.1)).Nodup) :
    (sortByName xs).Pairwise fun a b => Text.byteLt a.1 b.1 := by
  have hle : (sortByName xs).Pairwise fun a b => !decide (Text.byteLt b.1 a.1) := by
    apply List.pairwise_mergeSort
    · intro a b c hab hbc
      simp only [Bool.not_eq_true', decide_eq_false_iff_not] at hab hbc ⊢
      exact not_byteLt_trans hab hbc
    · intro a b
      simp only [Bool.or_eq_true, Bool.not_eq_true', decide_eq_false_iff_not]
      by_cases hba : Text.byteLt b.1 a.1
      · exact .inr fun hab => List.lt_irrefl _ (Text.byteLt_trans hab hba)
      · exact .inl hba
  have hne : (sortByName xs).Pairwise fun a b => a.1 ≠ b.1 :=
    ((List.mergeSort_perm xs _).pairwise_iff Ne.symm).mpr (List.pairwise_map.mp h)
  refine (hle.and hne).imp ?_
  rintro a b ⟨hab, hne⟩
  exact Text.byteLt_of_not_byteLt (by simpa using hab) (Ne.symm hne)

/-- A directory that lists its names in order is walked in this order. -/
theorem walk_of_pairwise {entries : List (String × Node)}
    (h : (entries.map (·.1)).Pairwise Text.byteLt) :
    walk rules selects levels base (.dir entries) =
      entries.flatMap (walkEntry rules selects levels base) := by
  rw [walk_dir, sortByName, List.mergeSort_of_pairwise]
  refine (List.pairwise_map.mp h).imp fun {a b} hab => ?_
  have hba : ¬ Text.byteLt b.1 a.1 := fun hba => List.lt_irrefl _ (Text.byteLt_trans hab hba)
  simpa using hba

private theorem walkEntry_below {e : String × Node}
    (ih : ∀ {levels}, loc ∈ walk rules selects levels (base ++ [e.1]) e.2 →
      base ++ [e.1] <+: loc) (h : loc ∈ walkEntry rules selects levels base e) :
    base ++ [e.1] <+: loc := by
  rw [walkEntry] at h
  split at h
  · cases h
  · split at h
    · split at h
      · rw [List.mem_singleton.mp h]
      · cases h
    · exact ih h

private theorem walk_below (h : loc ∈ walk rules selects levels base n) : base <+: loc := by
  induction n using Node.induct generalizing base levels with
  | file content => simp [walk] at h
  | link target => simp [walk] at h
  | dir entries ih =>
    obtain ⟨e, he, h⟩ := mem_walk_dir.mp h
    exact (List.prefix_append base [e.1]).trans (walkEntry_below (ih e he) h)

/-- A walk goes through the files in strict order of the names on the way, so it comes by each
once. -/
theorem pairwise_walk (tree : n.WellFormed) :
    (walk rules selects levels base n).Pairwise (List.Lex Text.byteLt) := by
  induction n using Node.induct generalizing base levels with
  | file content => simp [walk]
  | link target => simp [walk]
  | dir entries ih =>
    obtain ⟨hnodup, hchild⟩ := tree.child
    rw [walk_dir, List.pairwise_flatMap]
    constructor
    · intro e he
      have he := List.mem_mergeSort.mp he
      simp only [walkEntry]
      split
      · exact List.Pairwise.nil
      · split
        · split
          · exact List.pairwise_singleton ..
          · exact List.Pairwise.nil
        · exact ih e he (hchild e he).2
    · refine (pairwise_sortByName hnodup).imp ?_
      intro e f hlt a ha b hb
      obtain ⟨a, rfl⟩ := walkEntry_below walk_below ha
      obtain ⟨b, rfl⟩ := walkEntry_below walk_below hb
      rw [List.append_assoc, List.append_assoc]
      exact List.Lex.append_left _ (.rel hlt) base

/-- A walk comes by the same places whatever it selects. What it selects is sifted from them. -/
theorem walk_eq_filter (selects : String → Bool) : walk rules selects levels base n =
    (walk rules (fun _ => true) levels base n).filter fun loc => loc.getLast?.any selects := by
  induction n using Node.induct generalizing base levels with
  | file content => simp [walk]
  | link target => simp [walk]
  | dir entries ih =>
    have hentry (e : String × Node) (he : e ∈ entries) :
        walkEntry rules selects levels base e =
          (walkEntry rules (fun _ => true) levels base e).filter fun loc =>
            loc.getLast?.any selects := by
      rw [walkEntry, walkEntry]
      split
      · rfl
      · split
        · rw [if_pos rfl, List.filter_singleton, List.getLast?_concat, Option.any_some,
            Bool.cond_eq_ite]
        · exact ih e he
    rw [walk_dir, walk_dir, List.filter_flatMap]
    exact List.flatMap_congr fun e he => hentry e (List.mem_mergeSort.mp he)

/-- Of names in a well-formed tree, a walk only asks about the visible ones. -/
theorem walk_congr_selects (tree : n.WellFormed)
    (h : ∀ name, IsName name → isHidden name = false → selects' name = selects name) :
    walk rules selects' (levelsOf rules base) base n =
      walk rules selects (levelsOf rules base) base n := by
  rw [walk_eq_filter selects', walk_eq_filter selects]
  refine List.filter_congr fun loc hloc => ?_
  obtain ⟨below, rfl, hselected⟩ := (mem_walk_iff tree).mp hloc
  obtain ⟨dir, name, rfl, -⟩ := hselected.selects
  have hname := tree.isName_of_kindAt? hselected.isFile name (by simp)
  rw [← List.append_assoc, List.getLast?_concat, Option.any_some, Option.any_some,
    h name hname (hselected.visible name (by simp))]

theorem walk_sublist (h : ∀ name, selects name = true → selects' name = true) :
    (walk rules selects levels base n).Sublist (walk rules selects' levels base n) := by
  rw [walk_eq_filter selects, walk_eq_filter selects']
  refine List.monotone_filter_right _ fun loc hloc => ?_
  obtain ⟨name, hlast, hname⟩ := (Option.any_eq_true _ _).mp hloc
  exact (Option.any_eq_true _ _).mpr ⟨name, hlast, h name hname⟩

theorem nodup_walk (tree : n.WellFormed) : (walk rules selects levels base n).Nodup := by
  refine (pairwise_walk tree).imp ?_
  rintro a b hlex rfl
  exact List.lex_irrefl (fun s => List.lt_irrefl (Text.bytes s)) a hlex

end
end LicenseHeader.Scan
