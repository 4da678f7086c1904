import LicenseHeader.Config.Load
import LicenseHeader.Proofs.Patterns

/-! Configurations that are accepted, and what the patterns of their registries select. -/
namespace LicenseHeader

structure StyleEntry.Sound (extension : String) (e : StyleEntry) : Prop where
  nonempty : extension ≠ ""
  no_dot : '.' ∉ extension.toList
  middle : e.middle ≠ ""
  paired : e.top = "" ↔ e.bottom = ""

theorem StyleEntry.flaw?_eq_none {extension : String} {e : StyleEntry} :
    e.flaw? extension = none ↔ e.Sound extension := by
  have hdot (h : extension.toList.head? = some '.') : '.' ∈ extension.toList :=
    List.mem_of_mem_head? h
  constructor
  · intro h
    unfold flaw? at h
    split_ifs at h with hempty hhead hinner hmiddle hpaired
    refine ⟨by simpa using hempty, by simpa using hinner, by simpa using hmiddle, ?_⟩
    simpa using hpaired
  · intro h
    have hhead : extension.toList.head? ≠ some '.' := mt hdot h.no_dot
    unfold flaw?
    simp [h.nonempty, hhead, h.no_dot, h.middle, h.paired]

namespace Config

variable {path : Path} {text : String} {config : Config} {extension : String}

theorem flaw?_eq_none : config.flaw? = none ↔ ∀ e ∈ config.styles, e.2.Sound e.1 := by
  simp [flaw?, StyleEntry.flaw?_eq_none]

theorem parse_eq_ok : parse path text = .ok config ↔
    ofToml? text = some config ∧ ∀ e ∈ config.styles, e.2.Sound e.1 := by
  rw [parse, ← flaw?_eq_none]
  cases ofToml? text with
  | none => simp
  | some c =>
    rw [Option.some_inj]
    constructor
    · intro h
      cases hflaw : c.flaw? with
      | none =>
        simp only [hflaw] at h
        obtain rfl := Except.ok.inj h
        exact ⟨rfl, hflaw⟩
      | some found =>
        simp only [hflaw] at h
        cases h
    · rintro ⟨rfl, hflaw⟩
      simp only [hflaw]

theorem ofToml?_eq_some (h : (ofToml? text).map (·.styles) = some config.styles) :
    ofToml? text = some config := by
  obtain ⟨c, hc, hstyles⟩ := Option.map_eq_some_iff.mp h
  cases c
  subst hstyles
  exact hc

theorem mem_extensions_registry : extension ∈ config.registry.extensions ↔
    extension ∈ config.styles.map (·.1) ∨ extension ∈ Registry.builtin.extensions := by
  rw [registry, Registry.mem_extensions_insertAll, List.map_map]
  rfl

/-- An extension of a configuration that has special characters. -/
def Wild (config : Config) (extension : String) : Prop :=
  extension ∈ config.styles.map (·.1) ∧ ¬ Glob.Plain extension.toList

theorem plain_or_wild (h : extension ∈ config.registry.extensions) :
    Glob.Plain extension.toList ∨ config.Wild extension := by
  rcases mem_extensions_registry.mp h with hmem | hmem
  · exact (em (Glob.Plain extension.toList)).imp_right fun hwild => ⟨hmem, hwild⟩
  · exact .inl (Registry.literal_builtin extension hmem).2

theorem no_dot_of_mem_registry (accepted : parse path text = .ok config)
    (h : extension ∈ config.registry.extensions) : '.' ∉ extension.toList := by
  rcases mem_extensions_registry.mp h with hmem | hmem
  · obtain ⟨e, he, rfl⟩ := List.mem_map.mp hmem
    exact ((parse_eq_ok.mp accepted).2 e he).no_dot
  · exact (Registry.literal_builtin extension hmem).1

/-- If the patterns of a configuration are invalid, one of its own extensions is the reason. -/
theorem exists_wild_of_error {e : WalkError} (h : Scan.globs config.registry = .error e) :
    ∃ extension cause, config.Wild extension ∧ Scan.globOf extension = .error cause ∧
      e = .badPattern ("*." ++ extension) cause := by
  rcases Scan.globs_cases config.registry with ⟨gs, hgs, -⟩ | ⟨extension, hmem, cause, hcause, heq⟩
  · cases hgs.symm.trans h
  · obtain rfl := Except.error.inj (heq.symm.trans h)
    rcases plain_or_wild hmem with hplain | hwild
    · cases (Scan.globOf_plain hplain).symm.trans hcause
    · exact ⟨extension, cause, hwild, hcause, rfl⟩

theorem matchesSome_iff {gs : List (List Glob.Token)} {name : String}
    (accepted : parse path text = .ok config) (hgs : Scan.globs config.registry = .ok gs)
    (hslash : '/' ∉ name.toList) (hvisible : Scan.isHidden name = false) :
    Scan.matchesSome gs name = true ↔
      (∃ extension ∈ config.registry.extensions, Glob.Plain extension.toList ∧
        (⟨name⟩ : Path).extension? = some extension) ∨
      ∃ extension, config.Wild extension ∧ Scan.GlobMatches extension name := by
  have hmatches : Scan.matchesSome gs name = true ↔
      ∃ extension ∈ config.registry.extensions, Scan.GlobMatches extension name := by
    rcases Scan.globs_cases config.registry with ⟨gs', hgs', -, hmatches⟩ | ⟨_, -, cause, -, heq⟩
    · obtain rfl := Except.ok.inj (hgs'.symm.trans hgs)
      exact hmatches name
    · cases heq.symm.trans hgs
  have hplain {extension : String} (hmem : extension ∈ config.registry.extensions)
      (h : Glob.Plain extension.toList) :
      Scan.GlobMatches extension name ↔ (⟨name⟩ : Path).extension? = some extension := by
    rw [Path.extension?_name hslash (by simpa [Scan.isHidden] using hvisible)]
    exact Scan.globMatches_iff h (no_dot_of_mem_registry accepted hmem) hslash hvisible
  rw [hmatches]
  constructor
  · rintro ⟨extension, hmem, hmatch⟩
    rcases plain_or_wild hmem with h | hwild
    · exact .inl ⟨extension, hmem, h, (hplain hmem h).mp hmatch⟩
    · exact .inr ⟨extension, hwild, hmatch⟩
  · rintro (⟨extension, hmem, h, hext⟩ | ⟨extension, hwild, hmatch⟩)
    · exact ⟨extension, hmem, (hplain hmem h).mpr hext⟩
    · exact ⟨extension, mem_extensions_registry.mpr (.inl hwild.1), hmatch⟩

/-- The patterns of an accepted configuration select the names with a registered extension if its
own extensions have no special characters. If some do, these alone can make the patterns invalid,
and names are selected by them as by patterns. -/
theorem parse_selects {path : Path} {text : String} {config : Config}
    (accepted : parse path text = .ok config) :
    ((∀ extension, ¬ config.Wild extension) → ∃ gs, Scan.globs config.registry = .ok gs ∧
      ∀ name : String, '/' ∉ name.toList → Scan.isHidden name = false →
        (Scan.matchesSome gs name = true ↔ ∃ extension ∈ config.registry.extensions,
          (⟨name⟩ : Path).extension? = some extension)) ∧
    (∀ e, Scan.globs config.registry = .error e → ∃ extension cause, config.Wild extension ∧
      Scan.globOf extension = .error cause ∧ e = .badPattern ("*." ++ extension) cause) ∧
    ∀ gs, Scan.globs config.registry = .ok gs →
      ∀ name : String, '/' ∉ name.toList → Scan.isHidden name = false →
        (Scan.matchesSome gs name = true ↔
          (∃ extension ∈ config.registry.extensions, Glob.Plain extension.toList ∧
            (⟨name⟩ : Path).extension? = some extension) ∨
          ∃ extension, config.Wild extension ∧ Scan.GlobMatches extension name) := by
  refine ⟨fun hplain => ?_, fun e => exists_wild_of_error,
    fun gs hgs name => matchesSome_iff accepted hgs⟩
  cases hgs : Scan.globs config.registry with
  | error e =>
    obtain ⟨extension, -, hwild, -⟩ := exists_wild_of_error hgs
    exact absurd hwild (hplain extension)
  | ok gs =>
    refine ⟨gs, rfl, fun name hslash hvisible => ?_⟩
    rw [matchesSome_iff accepted hgs hslash hvisible, or_iff_left]
    · refine exists_congr fun extension => and_congr_right fun hmem => and_iff_right ?_
      exact (plain_or_wild hmem).resolve_right (hplain extension)
    · rintro ⟨extension, hwild, -⟩
      exact hplain extension hwild

def hashText (extension : String) : String :=
  "[comment-styles.\"" ++ extension ++ "\"]\nmiddle = \"# \"\n"

def hashStyle (extension : String) : Config where
  styles := [(extension, ⟨"", "# ", ""⟩)]
  distinct := by simp

private theorem parse_hashText (path : Path) (sound : extension ≠ "" ∧ '.' ∉ extension.toList)
    (h : (ofToml? (hashText extension)).map (·.styles) = some (hashStyle extension).styles) :
    parse path (hashText extension) = .ok (hashStyle extension) := by
  refine parse_eq_ok.mpr ⟨ofToml?_eq_some h, ?_⟩
  simp only [hashStyle, List.forall_mem_cons]
  exact ⟨⟨sound.1, sound.2, by decide, Iff.rfl⟩, by simp⟩

theorem parse_hashText_new : parse ⟨"c.toml"⟩ (hashText "new") = .ok (hashStyle "new") :=
  parse_hashText _ (by decide) (by decide +kernel)

theorem mem_registry_hashStyle {e : String} : e ∈ (hashStyle extension).registry.extensions ↔
    e = extension ∨ e ∈ Registry.builtin.extensions := by
  rw [mem_extensions_registry]
  simp [hashStyle]

/-- With one more extension, the names that its pattern matches are selected besides those with a
builtin extension. -/
theorem globs_hashStyle {g : List Glob.Token} (h : Scan.globOf extension = .ok g) :
    ∃ gs, Scan.globs (hashStyle extension).registry = .ok gs ∧
      ∀ name : String, '/' ∉ name.toList → Scan.isHidden name = false →
        (Scan.matchesSome gs name = true ↔ Glob.matchesBytes g (Text.bytes name) = true ∨
          ∃ e ∈ Registry.builtin.extensions, (⟨name⟩ : Path).extension? = some e) := by
  rcases Scan.globs_cases (hashStyle extension).registry with
    ⟨gs, hgs, -, hmatches⟩ | ⟨e, hmem, cause, hcause, -⟩
  · refine ⟨gs, hgs, fun name hslash hvisible => ?_⟩
    have hown : Scan.GlobMatches extension name ↔
        Glob.matchesBytes g (Text.bytes name) = true := by simp [Scan.GlobMatches, h]
    rw [hmatches, Path.extension?_name hslash (by simpa [Scan.isHidden] using hvisible)]
    simp only [mem_registry_hashStyle, or_and_right, exists_or, exists_eq_left, hown]
    refine or_congr_right (exists_congr fun e => and_congr_right fun he => ?_)
    obtain ⟨hdot, hplain⟩ := Registry.literal_builtin e he
    exact Scan.globMatches_iff hplain hdot hslash hvisible
  · rcases mem_registry_hashStyle.mp hmem with rfl | he
    · cases h.symm.trans hcause
    · cases (Scan.globOf_plain (Registry.literal_builtin e he).2).symm.trans hcause

theorem parse_selects_new : parse ⟨"c.toml"⟩ (hashText "new") = .ok (hashStyle "new") ∧
    ∃ gs, Scan.globs (hashStyle "new").registry = .ok gs ∧
      Scan.matchesSome gs "a.new" = true ∧ Scan.matchesSome gs "a.old" = false := by
  have accepted := parse_hashText_new
  have hplain : ∀ extension, ¬ (hashStyle "new").Wild extension := by
    rintro extension ⟨hmem, hwild⟩
    obtain rfl := List.mem_singleton.mp hmem
    exact hwild (by decide)
  obtain ⟨gs, hgs, hselects⟩ := (parse_selects accepted).1 hplain
  refine ⟨accepted, gs, hgs, ?_, ?_⟩
  · rw [hselects "a.new" (by decide) (by decide)]
    exact ⟨"new", mem_registry_hashStyle.mpr (.inl rfl), by decide⟩
  · rw [← Bool.not_eq_true, hselects "a.old" (by decide) (by decide)]
    rintro ⟨extension, hmem, hext⟩
    obtain rfl : "old" = extension := Option.some.inj hext
    rw [mem_registry_hashStyle, Registry.mem_extensions_builtin] at hmem
    exact absurd hmem (by decide)

/-- What special characters in an extension can do: the patterns are invalid, match names with an
extension that is not registered, or leave out names with one that is. -/
theorem parse_selects_misses :
    (parse ⟨"c.toml"⟩ (hashText "[") = .ok (hashStyle "[") ∧
      Scan.globs (hashStyle "[").registry = .error (.badPattern "*.[" .unclosedClass)) ∧
    (parse ⟨"c.toml"⟩ (hashText "*") = .ok (hashStyle "*") ∧
      ∃ gs, Scan.globs (hashStyle "*").registry = .ok gs ∧ Scan.matchesSome gs "a.none" = true ∧
        ¬ ∃ extension ∈ (hashStyle "*").registry.extensions,
          (⟨"a.none"⟩ : Path).extension? = some extension) ∧
    (parse ⟨"c.toml"⟩ (hashText "[x]") = .ok (hashStyle "[x]") ∧
      ∃ gs, Scan.globs (hashStyle "[x]").registry = .ok gs ∧
        Scan.matchesSome gs "a.[x]" = false ∧
        ∃ extension ∈ (hashStyle "[x]").registry.extensions,
          (⟨"a.[x]"⟩ : Path).extension? = some extension) := by
  refine ⟨⟨parse_hashText _ (by decide) (by decide +kernel), ?_⟩,
    ⟨parse_hashText _ (by decide) (by decide +kernel), ?_⟩,
    ⟨parse_hashText _ (by decide) (by decide +kernel), ?_⟩⟩
  · have hglob : Scan.globOf "[" = .error .unclosedClass := rfl
    rcases Scan.globs_cases (hashStyle "[").registry with
      ⟨gs, -, hall, -⟩ | ⟨e, hmem, cause, hcause, heq⟩
    · obtain ⟨g, hg⟩ := hall "[" (mem_registry_hashStyle.mpr (.inl rfl))
      cases hglob.symm.trans hg
    · rcases mem_registry_hashStyle.mp hmem with rfl | he
      · cases hglob.symm.trans hcause
        exact heq
      · cases (Scan.globOf_plain (Registry.literal_builtin e he).2).symm.trans hcause
  · have hglob : Scan.globOf "*" = .ok [.star, .literal '.', .star] := rfl
    obtain ⟨gs, hgs, hmatches⟩ := globs_hashStyle hglob
    refine ⟨gs, hgs, (hmatches "a.none" (by decide) (by decide)).mpr (.inl (by decide +kernel)), ?_⟩
    rintro ⟨extension, hmem, hext⟩
    obtain rfl : "none" = extension := Option.some.inj hext
    rw [mem_registry_hashStyle, Registry.mem_extensions_builtin] at hmem
    exact absurd hmem (by decide)
  · have hglob : Scan.globOf "[x]" =
        .ok [.star, .literal '.', .oneOf false [('x', 'x')]] := rfl
    obtain ⟨gs, hgs, hmatches⟩ := globs_hashStyle hglob
    refine ⟨gs, hgs, ?_, "[x]", mem_registry_hashStyle.mpr (.inl rfl), by decide⟩
    rw [← Bool.not_eq_true, hmatches "a.[x]" (by decide) (by decide)]
    rintro (hmatch | ⟨extension, hmem, hext⟩)
    · exact absurd hmatch (by decide +kernel)
    · obtain rfl : "[x]" = extension := Option.some.inj hext
      rw [Registry.mem_extensions_builtin] at hmem
      exact absurd hmem (by decide)

end Config
end LicenseHeader
