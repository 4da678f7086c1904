/-! Look-up in lists of pairs whose keys are distinct. -/
namespace LicenseHeader

variable {α : Type} {xs ys : List (String × α)} {key : String} {x : α}

theorem lookup_cons_eq_ite (e : String × α) (xs : List (String × α)) (key : String) :
    (e :: xs).lookup key = if key = e.1 then some e.2 else xs.lookup key := by
  by_cases h : key = e.1
  · rw [List.lookup_cons, beq_iff_eq.mpr h, if_pos h]
  · rw [List.lookup_cons, beq_false_of_ne h, if_neg h]

theorem mem_of_lookup_eq_some (h : xs.lookup key = some x) : (key, x) ∈ xs := by
  obtain ⟨before, after, rfl, -⟩ := List.lookup_eq_some_iff.mp h
  simp

theorem lookup_eq_some_of_mem (hn : (xs.map (·.1)).Nodup) (h : (key, x) ∈ xs) :
    xs.lookup key = some x := by
  obtain ⟨before, after, rfl⟩ := List.append_of_mem h
  refine List.lookup_eq_some_iff.mpr ⟨before, after, rfl, fun p hp => ?_⟩
  rw [List.map_append, List.nodup_append] at hn
  have hne : p.1 ≠ key := hn.2.2 p.1 (List.mem_map_of_mem hp) key (by simp)
  simpa using Ne.symm hne

theorem lookup_eq_some_iff_mem (hn : (xs.map (·.1)).Nodup) :
    xs.lookup key = some x ↔ (key, x) ∈ xs :=
  ⟨mem_of_lookup_eq_some, lookup_eq_some_of_mem hn⟩

/-- Look-up of distinct keys does not depend on their order. -/
theorem lookup_of_perm (hn : (xs.map (·.1)).Nodup) (perm : xs.Perm ys) (key : String) :
    xs.lookup key = ys.lookup key := by
  apply Option.ext
  intro x
  rw [lookup_eq_some_iff_mem hn, lookup_eq_some_iff_mem ((perm.map _).nodup_iff.mp hn),
    perm.mem_iff]

theorem lookup_map_snd {β : Type} (f : α → β) (xs : List (String × α)) (key : String) :
    (xs.map fun e => (e.1, f e.2)).lookup key = (xs.lookup key).map f := by
  induction xs with
  | nil => rfl
  | cons e xs ih =>
    rw [List.map_cons, lookup_cons_eq_ite, lookup_cons_eq_ite, ih]
    split <;> rfl

theorem isSome_lookup_iff : (xs.lookup key).isSome ↔ key ∈ xs.map (·.1) := by
  rw [List.lookup_isSome_iff, List.mem_map]
  refine exists_congr fun e => and_congr_right fun _ => ?_
  rw [beq_iff_eq, eq_comm]

theorem lookup_eq_none_of_not_mem (h : key ∉ xs.map (·.1)) : xs.lookup key = none :=
  Option.not_isSome_iff_eq_none.mp (mt isSome_lookup_iff.mp h)

end LicenseHeader
