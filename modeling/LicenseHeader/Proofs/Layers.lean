import LicenseHeader.Proofs.Configured
import Mathlib.Data.List.Sort

/-! Registries as layered maps: the style last given to an extension counts before the configured
one, and that before the builtin one. A registry is known by its look-ups. -/
namespace LicenseHeader

namespace Registry

variable {registry registry' : Registry} {extension : String}

theorem nodup_extensions (registry : Registry) : registry.extensions.Nodup := by
  refine registry.pairwise_extensions.imp ?_
  rintro a b hlt rfl
  exact Text.byteLt_irrefl a hlt

/-- Registries with the same look-ups are the same. -/
theorem ext_lookup (h : ∀ extension, registry.lookup extension = registry'.lookup extension) :
    registry = registry' := by
  have hirrefl : Std.Irrefl fun a b : String × Style => Text.byteLt a.1 b.1 :=
    ⟨fun a => Text.byteLt_irrefl a.1⟩
  have hantisymm : Std.Antisymm fun a b : String × Style => Text.byteLt a.1 b.1 :=
    ⟨fun a _ hab hba => absurd (Text.byteLt_trans hab hba) (Text.byteLt_irrefl a.1)⟩
  have hmem : ∀ e, e ∈ registry.entries ↔ e ∈ registry'.entries := by
    intro e
    rw [← lookup_eq_some_iff_mem registry.nodup_extensions,
      ← lookup_eq_some_iff_mem registry'.nodup_extensions]
    exact Eq.congr (h e.1) rfl
  have hentries := registry.ordered.eq_of_mem_iff registry'.ordered hmem
  cases registry
  cases registry'
  cases hentries
  rfl

end Registry

namespace Config

variable {config config' : Config} {extension : String}

/-- The configured style of an extension counts before the builtin one. -/
theorem lookup_registry (config : Config) (extension : String) :
    config.registry.lookup extension =
      ((config.styles.lookup extension).map StyleEntry.style).or
        (Style.builtin? extension) := by
  have distinct : ((config.styles.map fun e => (e.1, e.2.style)).map (·.1)).Nodup := by
    rw [List.map_map]
    exact config.distinct
  rw [← Registry.lookup_builtin, ← lookup_map_snd]
  exact Registry.lookup_insertAll_of_nodup distinct .builtin extension

end Config

namespace Registry

/-- After any styles given to extensions of a configured or of the builtin registry, look-up finds
the last one given, else the configured one, else the builtin one, and what was not touched is as it
was. The extensions stay in strict byte order, are those that look-up finds, and make the patterns.
-/
theorem lookup_layered (config : Option Config) (given : List (String × Style)) :
    let base := config.elim builtin Config.registry
    let registry := base.insertAll given
    (∀ extension, registry.lookup extension = (given.reverse.lookup extension).or
      (((config.bind (·.styles.lookup extension)).map StyleEntry.style).or
        (Style.builtin? extension))) ∧
    (∀ extension, extension ∉ given.map (·.1) →
      registry.lookup extension = base.lookup extension) ∧
    (∀ extension, (∀ c ∈ config, extension ∉ c.styles.map (·.1)) →
      base.lookup extension = builtin.lookup extension) ∧
    (∀ extension, builtin.lookup extension = Style.builtin? extension) ∧
    (∀ c : Config, c.isEmpty = true → c.registry = builtin) ∧
    registry.extensions.Pairwise Text.byteLt ∧ registry.extensions.Nodup ∧
    registry.extensions.length = registry.size ∧
    (∀ extension, extension ∈ registry.extensions ↔ (registry.lookup extension).isSome) ∧
    registry.patterns = registry.extensions.map ("*." ++ ·) := by
  intro base registry
  have hbase (extension : String) : base.lookup extension =
      ((config.bind (·.styles.lookup extension)).map StyleEntry.style).or
        (Style.builtin? extension) := by
    cases config with
    | none => simpa [base] using lookup_builtin extension
    | some c => exact c.lookup_registry extension
  refine ⟨fun extension => ?_, fun extension hnot => ?_, fun extension hnot => ?_, lookup_builtin,
    fun c hempty => ?_, registry.pairwise_extensions, registry.nodup_extensions, ?_,
    fun extension => lookup_isSome_iff.symm, rfl⟩
  · rw [lookup_insertAll, hbase]
  · have hnone : given.reverse.lookup extension = none :=
      lookup_eq_none_of_not_mem (by simpa using hnot)
    rw [lookup_insertAll, hnone, Option.none_or]
  · cases config with
    | none => simp only [base, Option.elim_none]
    | some c =>
      have hnone := lookup_eq_none_of_not_mem (hnot c rfl)
      rw [hbase, lookup_builtin, Option.bind_some, hnone, Option.map_none, Option.none_or]
  · have hnone : c.styles = [] := List.isEmpty_iff.mp hempty
    refine ext_lookup fun extension => ?_
    rw [Config.lookup_registry, hnone, lookup_builtin, List.lookup_nil, Option.map_none,
      Option.none_or]
  · rw [extensions, size, List.length_map]

theorem lookup_layered_twice :
    let given : List (String × Style) := [("zz", .line "1"), ("py", .line "2"), ("zz", .line "3")]
    let registry := (Config.hashStyle "rs").registry.insertAll given
    registry.lookup "zz" = some (.line "3") ∧ registry.lookup "rs" = some (.line "# ") ∧
      registry.lookup "sql" = some (.line "-- ") ∧ registry.lookup "json" = none ∧
      registry.lookup "html" = builtin.lookup "html" := by
  intro given registry
  obtain ⟨hlayers, hgiven, hconfigured, -⟩ := lookup_layered (some (Config.hashStyle "rs")) given
  simp only [Option.elim_some] at hlayers hgiven hconfigured
  have huntouched : ∀ c ∈ some (Config.hashStyle "rs"), "html" ∉ c.styles.map (·.1) := by
    rintro c ⟨⟩
    decide
  exact ⟨(hlayers "zz").trans (by decide), (hlayers "rs").trans (by decide),
    (hlayers "sql").trans (by decide +kernel), (hlayers "json").trans (by decide +kernel),
    (hgiven "html" (by decide)).trans (hconfigured "html" huntouched)⟩

end Registry
end LicenseHeader
