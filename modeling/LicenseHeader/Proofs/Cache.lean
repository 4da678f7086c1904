import LicenseHeader.Header.Cache
import LicenseHeader.Proofs.Lookup
import LicenseHeader.Registry
import Mathlib.Data.Finset.Card
import Mathlib.Data.Finset.Dedup

/-! Header caches that serve a registry: what they hold is what would be made anew. -/
namespace LicenseHeader.HeaderCache

def extensions (c : HeaderCache) : Finset String := (c.headers.map (·.1)).toFinset

/-- A cache for one license that has at most one header an extension, each in the registered
style. -/
structure Renders (registry : Registry) (license : License) (c : HeaderCache) : Prop where
  license_eq : c.license = license
  distinct : (c.headers.map (·.1)).Nodup
  registered : ∀ extension header, c.headers.lookup extension = some header →
    ∃ style, registry.lookup extension = some style ∧ header = style.header license.text

variable {registry : Registry} {license : License} {c : HeaderCache} {extension : String}
  {style : Style}

theorem renders_new (registry : Registry) (license : License) :
    Renders registry license (new license) where
  license_eq := rfl
  distinct := List.nodup_nil
  registered _ _ h := nomatch h

theorem extensions_new (license : License) : (new license).extensions = ∅ := rfl

theorem size_of_nodup (h : (c.headers.map (·.1)).Nodup) : c.size = c.extensions.card := by
  rw [extensions, List.toFinset_card_of_nodup h, List.length_map]
  rfl

theorem Renders.size (h : Renders registry license c) : c.size = c.extensions.card :=
  size_of_nodup h.distinct

theorem isEmpty_iff_extensions (c : HeaderCache) : c.isEmpty = true ↔ c.extensions = ∅ := by
  rw [isEmpty, List.isEmpty_iff, extensions, List.toFinset_eq_empty_iff, List.map_eq_nil_iff]

theorem extensions_get (c : HeaderCache) (extension : String) (style : Style) :
    (c.get extension style).2.extensions = insert extension c.extensions := by
  rw [get]
  cases hlookup : c.headers.lookup extension with
  | none => simp [extensions]
  | some header =>
    have hmem : extension ∈ c.extensions :=
      List.mem_toFinset.mpr (List.mem_map_of_mem (mem_of_lookup_eq_some hlookup))
    exact (Finset.insert_eq_of_mem hmem).symm

theorem fst_get (c : HeaderCache) (extension : String) (style : Style) :
    (c.get extension style).1 =
      (c.headers.lookup extension).getD (style.header c.license.text) := by
  rw [get]
  cases c.headers.lookup extension <;> rfl

theorem license_get (c : HeaderCache) (extension : String) (style : Style) :
    (c.get extension style).2.license = c.license := by
  rw [get]
  cases c.headers.lookup extension <;> rfl

theorem nodup_get (h : (c.headers.map (·.1)).Nodup) (extension : String) (style : Style) :
    ((c.get extension style).2.headers.map (·.1)).Nodup := by
  rw [get]
  cases hlookup : c.headers.lookup extension with
  | some header => exact h
  | none =>
    have hnew : extension ∉ c.headers.map (·.1) := by
      rw [← isSome_lookup_iff, hlookup]
      exact Bool.false_ne_true
    exact List.nodup_cons.mpr ⟨hnew, h⟩

theorem lookup_get (c : HeaderCache) (extension other : String) (style : Style) :
    (c.get extension style).2.headers.lookup other =
      if other = extension then some (c.get extension style).1 else c.headers.lookup other := by
  rw [get]
  cases hlookup : c.headers.lookup extension with
  | some header =>
    by_cases heq : other = extension
    · rw [if_pos heq, heq, hlookup]
    · rw [if_neg heq]
  | none => exact lookup_cons_eq_ite _ _ other

/-- Asking for the header of a registered extension gives that in the registered style, made now
or before. -/
theorem Renders.get (h : Renders registry license c) (hs : registry.lookup extension = some style) :
    (c.get extension style).1 = style.header license.text ∧
      Renders registry license (c.get extension style).2 := by
  have hheader : (c.get extension style).1 = style.header license.text := by
    rw [fst_get, h.license_eq]
    cases hlookup : c.headers.lookup extension with
    | some header =>
      obtain ⟨style', hs', rfl⟩ := h.registered extension header hlookup
      obtain rfl := Option.some.inj (hs.symm.trans hs')
      rfl
    | none => rfl
  have hlicense : (c.get extension style).2.license = license :=
    (license_get c extension style).trans h.license_eq
  refine ⟨hheader, hlicense, nodup_get h.distinct extension style, ?_⟩
  intro other header hother
  rw [lookup_get, hheader] at hother
  split at hother
  · next heq =>
    subst heq
    exact ⟨style, hs, (Option.some.inj hother).symm⟩
  · exact h.registered other header hother

end LicenseHeader.HeaderCache
