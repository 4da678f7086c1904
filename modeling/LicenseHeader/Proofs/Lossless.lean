import LicenseHeader.Proofs.Layers

/-! Validation of configured styles: which flaw is reported, and that the styles without one are
registered as they were configured. -/
namespace LicenseHeader

def Flaw.order : List Flaw :=
  [.emptyExtension, .leadingDot, .innerDot, .emptyMiddle, .unpaired]

namespace StyleEntry

variable {extension : String} {e : StyleEntry} {flaw : Flaw}

/-- What each flaw is, whether or not the entry has others. -/
def Has (extension : String) (e : StyleEntry) : Flaw → Prop
  | .emptyExtension => extension = ""
  | .leadingDot => extension.toList.head? = some '.'
  | .innerDot => '.' ∈ extension.toList
  | .emptyMiddle => e.middle = ""
  | .unpaired => ¬ (e.top = "" ↔ e.bottom = "")

instance : DecidablePred (e.Has extension)
  | .emptyExtension => inferInstanceAs (Decidable (extension = ""))
  | .leadingDot => inferInstanceAs (Decidable (extension.toList.head? = some '.'))
  | .innerDot => inferInstanceAs (Decidable ('.' ∈ extension.toList))
  | .emptyMiddle => inferInstanceAs (Decidable (e.middle = ""))
  | .unpaired => inferInstanceAs (Decidable (¬ (e.top = "" ↔ e.bottom = "")))

/-- A flaw of an entry that has none of those looked for earlier. -/
structure FirstFlaw (extension : String) (e : StyleEntry) (flaw : Flaw) : Prop where
  has : e.Has extension flaw
  first : ∃ earlier later, Flaw.order = earlier ++ flaw :: later ∧
    ∀ f ∈ earlier, ¬ e.Has extension f

theorem flaw?_eq_find? (extension : String) (e : StyleEntry) :
    e.flaw? extension = Flaw.order.find? fun flaw => e.Has extension flaw := by
  unfold flaw?
  split_ifs <;> simp_all [Flaw.order, Has]

theorem flaw?_eq_some : e.flaw? extension = some flaw ↔ e.FirstFlaw extension flaw := by
  simp only [flaw?_eq_find?, List.find?_eq_some_iff_append, decide_eq_true_eq,
    Bool.not_eq_eq_eq_not, Bool.not_true, decide_eq_false_iff_not]
  exact ⟨fun ⟨hhas, hfirst⟩ => ⟨hhas, hfirst⟩, fun h => ⟨h.has, h.first⟩⟩

def ofStyle : Style → StyleEntry
  | .line lead => ⟨"", lead, ""⟩
  | .block opening lead closing => ⟨opening, lead, closing⟩

theorem style_eq_ite (e : StyleEntry) : e.style =
    if e.top = "" ∨ e.bottom = "" then .line e.middle
    else .block e.top e.middle e.bottom := by
  by_cases htop : e.top = ""
  · simp [style, present?, Style.ofTokens, htop]
  · by_cases hbottom : e.bottom = "" <;>
      simp [style, present?, Style.ofTokens, htop, hbottom]

theorem style_of_paired (paired : e.top = "" ↔ e.bottom = "") : e.style =
    if e.top = "" then .line e.middle else .block e.top e.middle e.bottom := by
  simp only [style_eq_ite, ← paired, or_self]

/-- An entry is known from its style unless it has only one of the two outer tokens. -/
theorem ofStyle_style : ofStyle e.style = e ↔ (e.top = "" ↔ e.bottom = "") := by
  constructor
  · intro h
    rw [style_eq_ite] at h
    split_ifs at h with hline
    · have htop : "" = e.top := congrArg top h
      have hbottom : "" = e.bottom := congrArg bottom h
      exact iff_of_true htop.symm hbottom.symm
    · exact iff_of_false (mt .inl hline) (mt .inr hline)
  · intro paired
    rw [style_of_paired paired]
    split_ifs with htop
    · obtain ⟨top, middle, bottom⟩ := e
      obtain rfl : top = "" := htop
      obtain rfl : bottom = "" := paired.mp rfl
      rfl
    · rfl

end StyleEntry

namespace Config

variable {config config' : Config} {path : Path} {text extension : String} {e : StyleEntry}
  {flaw : Flaw}

theorem parse_eq_invalid (h : ofToml? text = some config) :
    parse path text = .error (.invalid extension flaw) ↔ config.flaw? = some (extension, flaw) := by
  simp only [parse, h]
  cases config.flaw? with
  | none => simp
  | some found => simp [Prod.ext_iff]

/-- A flaw that is reported is the first one of an entry. Which entry that is depends on the order,
and each entry with a flaw is the one in some order. -/
theorem exists_flaw?_iff : (∃ config' : Config, config.styles.Perm config'.styles ∧
      config'.flaw? = some (extension, flaw)) ↔
    ∃ e, (extension, e) ∈ config.styles ∧ e.FirstFlaw extension flaw := by
  constructor
  · rintro ⟨config', perm, h⟩
    obtain ⟨e, he, hflaw⟩ := List.exists_of_findSome?_eq_some h
    obtain ⟨f, hf, heq⟩ := Option.map_eq_some_iff.mp hflaw
    cases heq
    exact ⟨e.2, perm.mem_iff.mpr he, StyleEntry.flaw?_eq_some.mp hf⟩
  · -- the order that has this entry first
    rintro ⟨e, hmem, hfirst⟩
    obtain ⟨before, after, hstyles⟩ := List.append_of_mem hmem
    have perm : config.styles.Perm ((extension, e) :: (before ++ after)) :=
      hstyles ▸ List.perm_middle
    refine ⟨⟨_, (perm.map _).nodup_iff.mp config.distinct⟩, perm, ?_⟩
    simp [flaw?, StyleEntry.flaw?_eq_some.mpr hfirst]

theorem lookup_registry_of_mem (h : (extension, e) ∈ config.styles) :
    config.registry.lookup extension = some e.style := by
  rw [lookup_registry, lookup_eq_some_of_mem config.distinct h]
  rfl

theorem registry_of_perm (perm : config.styles.Perm config'.styles) :
    config.registry = config'.registry := by
  refine Registry.ext_lookup fun extension => ?_
  rw [lookup_registry, lookup_registry, lookup_of_perm config.distinct perm]

/-- The registered styles say what was configured if and only if no entry has only one of the two
outer tokens. -/
theorem recovered_iff :
    (∀ e ∈ config.styles, (config.registry.lookup e.1).map StyleEntry.ofStyle = some e.2) ↔
      ∀ e ∈ config.styles, e.2.top = "" ↔ e.2.bottom = "" := by
  refine forall₂_congr fun e he => ?_
  rw [lookup_registry_of_mem he, Option.map_some, Option.some_inj, StyleEntry.ofStyle_style]

/-- A configuration is accepted if and only if no entry has a flaw. Else the first flaw of an entry
is reported, of which one depends on the order. The entries of an accepted configuration are
registered with all their tokens, and the order makes no difference to the registry. -/
theorem validated_lossless (config : Config) :
    (config.flaw? = none ↔ ∀ e ∈ config.styles, e.2.Sound e.1) ∧
    (∀ extension flaw, (∃ config' : Config, config.styles.Perm config'.styles ∧
        config'.flaw? = some (extension, flaw)) ↔
      ∃ e, (extension, e) ∈ config.styles ∧ e.FirstFlaw extension flaw) ∧
    (∀ path text, ofToml? text = some config →
      (parse path text = .ok config ↔ ∀ e ∈ config.styles, e.2.Sound e.1) ∧
      ∀ extension flaw, parse path text = .error (.invalid extension flaw) ↔
        config.flaw? = some (extension, flaw)) ∧
    (∀ path text, parse path text = .ok config → ∀ extension e, (extension, e) ∈ config.styles →
      config.registry.lookup extension =
        some (if e.top = "" then .line e.middle else .block e.top e.middle e.bottom) ∧
      (e.top = "" ↔ e.bottom = "") ∧
      (config.registry.lookup extension).map StyleEntry.ofStyle = some e) ∧
    ((∀ e ∈ config.styles, (config.registry.lookup e.1).map StyleEntry.ofStyle = some e.2) ↔
      ∀ e ∈ config.styles, e.2.top = "" ↔ e.2.bottom = "") ∧
    ∀ config' : Config, config.styles.Perm config'.styles →
      (config.flaw? = none ↔ config'.flaw? = none) ∧ config.registry = config'.registry := by
  refine ⟨flaw?_eq_none, fun _ _ => exists_flaw?_iff, fun path text hform => ⟨?_, fun _ _ =>
    parse_eq_invalid hform⟩, fun path text accepted extension e he => ?_, recovered_iff,
    fun config' perm => ⟨?_, registry_of_perm perm⟩⟩
  · rw [parse_eq_ok]
    exact and_iff_right hform
  · have paired := ((parse_eq_ok.mp accepted).2 _ he).paired
    rw [lookup_registry_of_mem he, Option.map_some, Option.some_inj, Option.some_inj]
    exact ⟨StyleEntry.style_of_paired paired, paired, StyleEntry.ofStyle_style.mpr paired⟩
  · rw [flaw?_eq_none, flaw?_eq_none]
    exact forall_congr' fun e => imp_congr_left perm.mem_iff

def pairText : String :=
  "[comment-styles]\nzz = [\"<#\", \"  \", \"#>\"]\n" ++
    "[comment-styles.y]\nmiddle = \"; \"\n"

def pairStyles : Config where
  styles := [("zz", ⟨"<#", "  ", "#>"⟩), ("y", ⟨"", "; ", ""⟩)]
  distinct := by decide

theorem validated_lossless_pair : parse ⟨"c.toml"⟩ pairText = .ok pairStyles ∧
    pairStyles.registry.lookup "zz" = some (.block "<#" "  " "#>") ∧
    pairStyles.registry.lookup "y" = some (.line "; ") ∧
    parse ⟨"c.toml"⟩ (hashText "a.b") = .error (.invalid "a.b" .innerDot) := by
  have hpair : ofToml? pairText = some pairStyles := ofToml?_eq_some (by decide +kernel)
  have hhash : ofToml? (hashText "a.b") = some (hashStyle "a.b") :=
    ofToml?_eq_some (by decide +kernel)
  obtain ⟨hsound, -, hparse, hregistered, -⟩ := validated_lossless pairStyles
  have accepted : parse ⟨"c.toml"⟩ pairText = .ok pairStyles :=
    (hparse _ _ hpair).1.mpr (hsound.mp (by decide))
  refine ⟨accepted, ?_, ?_, ?_⟩
  · exact (hregistered _ _ accepted "zz" ⟨"<#", "  ", "#>"⟩ (by decide)).1
  · exact (hregistered _ _ accepted "y" ⟨"", "; ", ""⟩ (by decide)).1
  · exact ((validated_lossless (hashStyle "a.b")).2.2.1 _ _ hhash).2 _ _ |>.mpr (by decide)

end Config
end LicenseHeader
