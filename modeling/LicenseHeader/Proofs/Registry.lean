import LicenseHeader.Proofs.Lookup
import LicenseHeader.Registry
import Mathlib.Data.List.Sort

/-! What registries hold: the styles they were given, and the builtin ones. -/
namespace LicenseHeader.Registry

variable {registry : Registry} {extension : String} {style : Style}

theorem lookup_insert (registry : Registry) (extension other : String) (style : Style) :
    (registry.insert extension style).lookup other =
      if other = extension then some style else registry.lookup other := by
  have hentry (es : List (String × Style)) : (insertEntry extension style es).lookup other =
      if other = extension then some style else es.lookup other := by
    induction es with
    | nil => simp [insertEntry, lookup_cons_eq_ite]
    | cons e es ih =>
      rw [insertEntry]
      by_cases h : e.1 = extension
      · rw [if_pos h, lookup_cons_eq_ite, lookup_cons_eq_ite, h]
        split <;> rfl
      · by_cases hlt : Text.byteLt extension e.1
        · rw [if_neg h, if_pos hlt, lookup_cons_eq_ite]
        · rw [if_neg h, if_neg hlt, lookup_cons_eq_ite, lookup_cons_eq_ite, ih]
          by_cases hother : other = e.1
          · rw [if_pos hother, if_pos hother, if_neg fun heq => h (hother.symm.trans heq)]
          · rw [if_neg hother, if_neg hother]
  exact hentry registry.entries

/-- The style that is last given to an extension counts, or the one it had if none is given. -/
theorem lookup_insertAll (registry : Registry) (styles : List (String × Style))
    (extension : String) : (registry.insertAll styles).lookup extension =
      (styles.reverse.lookup extension).or (registry.lookup extension) := by
  induction styles generalizing registry with
  | nil => rfl
  | cons d styles ih =>
    have hstep : registry.insertAll (d :: styles) =
        (registry.insert d.1 d.2).insertAll styles := rfl
    rw [hstep, ih, lookup_insert, List.reverse_cons, List.lookup_append, Option.or_assoc,
      lookup_cons_eq_ite]
    split <;> rfl

theorem lookup_isSome_iff :
    (registry.lookup extension).isSome ↔ extension ∈ registry.extensions :=
  isSome_lookup_iff

/-- If extensions are given one style each, the order makes no difference. -/
theorem lookup_insertAll_of_nodup {styles : List (String × Style)}
    (distinct : (styles.map (·.1)).Nodup) (registry : Registry) (extension : String) :
    (registry.insertAll styles).lookup extension =
      (styles.lookup extension).or (registry.lookup extension) := by
  rw [lookup_insertAll, lookup_of_perm distinct (List.reverse_perm styles).symm]

theorem lookup_builtin (extension : String) :
    builtin.lookup extension = Style.builtin? extension := by
  have distinct : (Style.builtinTable.map (·.1)).Nodup := by decide +kernel
  rw [builtin, lookup_insertAll_of_nodup distinct]
  exact Option.or_none

theorem mem_builtinTable (h : builtin.lookup extension = some style) :
    (extension, style) ∈ Style.builtinTable :=
  mem_of_lookup_eq_some ((lookup_builtin extension).symm.trans h)

theorem mem_extensions_insertAll {styles : List (String × Style)} :
    extension ∈ (registry.insertAll styles).extensions ↔
      extension ∈ styles.map (·.1) ∨ extension ∈ registry.extensions := by
  rw [← lookup_isSome_iff, lookup_insertAll, Option.isSome_or, Bool.or_eq_true, lookup_isSome_iff,
    isSome_lookup_iff, List.map_reverse, List.mem_reverse]

theorem pairwise_extensions (registry : Registry) :
    registry.extensions.Pairwise Text.byteLt :=
  List.pairwise_map.mpr registry.ordered

theorem mem_extensions_insert {other : String} :
    other ∈ (registry.insert extension style).extensions ↔
      other = extension ∨ other ∈ registry.extensions := by
  rw [← lookup_isSome_iff, lookup_insert, ← lookup_isSome_iff]
  split <;> simp [*]

/-- A new style for an extension adds no extension. -/
theorem extensions_insert_of_mem (h : extension ∈ registry.extensions) :
    (registry.insert extension style).extensions = registry.extensions := by
  have hirrefl : Std.Irrefl Text.byteLt := ⟨Text.byteLt_irrefl⟩
  have hantisymm : Std.Antisymm Text.byteLt :=
    ⟨fun a _ hab hba => absurd (Text.byteLt_trans hab hba) (Text.byteLt_irrefl a)⟩
  refine (pairwise_extensions _).eq_of_mem_iff (pairwise_extensions _) fun other => ?_
  rw [mem_extensions_insert]
  exact or_iff_right_of_imp fun heq => heq ▸ h

theorem mem_extensions_builtin :
    extension ∈ builtin.extensions ↔ extension ∈ Style.builtinTable.map (·.1) := by
  rw [← lookup_isSome_iff, lookup_builtin, Style.builtin?, isSome_lookup_iff]

theorem isAlphanum_builtin (h : extension ∈ builtin.extensions) :
    ∀ c ∈ extension.toList, c.isAlphanum = true := by
  have htable : ∀ e ∈ Style.builtinTable.map (·.1), e.toList.all Char.isAlphanum = true := by
    decide
  exact List.all_eq_true.mp (htable extension (mem_extensions_builtin.mp h))

theorem lookupPath_eq_some {p : Path} : registry.lookupPath p = some (extension, style) ↔
    p.extension? = some extension ∧ registry.lookup extension = some style := by
  rw [lookupPath, Option.bind_eq_some_iff]
  constructor
  · rintro ⟨ext, hext, h⟩
    obtain ⟨s, hs, heq⟩ := Option.map_eq_some_iff.mp h
    obtain ⟨rfl, rfl⟩ := Prod.mk.inj heq
    exact ⟨hext, hs⟩
  · rintro ⟨hext, hs⟩
    exact ⟨extension, hext, by rw [hs, Option.map_some]⟩

theorem lookupPath_insert (registry : Registry) (extension : String) (style : Style) (p : Path) :
    (registry.insert extension style).lookupPath p =
      if p.extension? = some extension then some (extension, style)
      else registry.lookupPath p := by
  rw [lookupPath, lookupPath]
  cases p.extension? with
  | none => rfl
  | some other =>
    rw [Option.bind_some, Option.bind_some, lookup_insert]
    by_cases h : other = extension
    · rw [if_pos h, if_pos (congrArg some h), h, Option.map_some]
    · rw [if_neg h, if_neg (mt Option.some.inj h)]

theorem lookupPath_builtin (p : Path) : builtin.lookupPath p =
    p.extension?.bind fun extension => (Style.builtin? extension).map (extension, ·) := by
  simp only [lookupPath, lookup_builtin]

theorem lookupPath_isSome_iff {p : Path} : (registry.lookupPath p).isSome ↔
    ∃ extension ∈ registry.extensions, p.extension? = some extension := by
  cases hext : p.extension? with
  | none => simp [lookupPath, hext]
  | some extension => simp [lookupPath, hext, lookup_isSome_iff]

end LicenseHeader.Registry
