import LicenseHeader.CommandLine.Report

/-! What a command line that can be read says: no option goes together with its rival. -/
namespace LicenseHeader.CommandLine

/-- What a draft holds of the options with a rival was noted as given. -/
structure Draft.Noted (d : Draft) : Prop where
  verbose : 0 < d.verbosity → .verbose ∈ d.given
  config : d.config.isSome → .config ∈ d.given

namespace Draft

theorem bind_eq_ok {α β : Type} {x : Except Stop α} {f : α → Except Stop β} {r : β} :
    (x >>= f) = .ok r ↔ ∃ a, x = .ok a ∧ f a = .ok r := by
  cases x <;> simp [bind, Except.bind]

section
variable {d d' : Draft} {o : Opt} {long : Bool} {value : Option String} {v : String}
  {a : Arguments}

theorem noted_empty : empty.Noted := ⟨nofun, nofun⟩

theorem note_eq_ok (h : d.note o = .ok d') :
    ∃ given, d' = { d with given } ∧ o ∈ given ∧ ∀ x ∈ d.given, x ∈ given := by
  rw [note] at h
  split at h
  · obtain rfl := Except.ok.inj h
    refine ⟨_, rfl, by simp, fun x hx => ?_⟩
    by_cases hxo : x = o
    · simp [hxo]
    · simp [List.mem_erase_of_ne hxo, hx]
  · split at h
    · cases h
    · obtain rfl := Except.ok.inj h
      exact ⟨_, rfl, by simp, fun x hx => List.mem_append_left [o] hx⟩

theorem Noted.note (hd : d.Noted) (h : d.note o = .ok d') : d'.Noted := by
  obtain ⟨given, rfl, -, hmem⟩ := note_eq_ok h
  exact ⟨fun hv => hmem _ (hd.verbose hv), fun hc => hmem _ (hd.config hc)⟩

theorem Noted.note_value {α : Type} {x : Except Stop α} {f : Draft → α → Draft} (hd : d.Noted)
    (h : (do let d ← d.note o; return f d (← x)) = .ok d')
    (hf : ∀ d v, d.Noted → (f d v).Noted) : d'.Noted := by
  obtain ⟨d₁, hnote, h⟩ := bind_eq_ok.mp h
  obtain ⟨v, -, h⟩ := bind_eq_ok.mp h
  obtain rfl := Except.ok.inj h
  exact hf d₁ v (hd.note hnote)

theorem Noted.apply (hd : d.Noted) (h : d.apply o long value = .ok d') : d'.Noted := by
  unfold Draft.apply at h
  split at h
  · cases h
  · cases h
  · obtain ⟨d₁, hnote, h⟩ := bind_eq_ok.mp h
    obtain rfl := Except.ok.inj h
    obtain ⟨given, rfl, hgiven, hmem⟩ := note_eq_ok hnote
    exact ⟨fun _ => hgiven, fun hc => hmem _ (hd.config hc)⟩
  · exact hd.note_value h fun _ _ hd => ⟨hd.verbose, hd.config⟩
  · exact hd.note_value h fun _ _ hd => ⟨hd.verbose, hd.config⟩
  · exact hd.note_value h fun _ _ hd => ⟨hd.verbose, hd.config⟩
  · obtain ⟨d₁, hnote, h⟩ := bind_eq_ok.mp h
    obtain ⟨path, -, h⟩ := bind_eq_ok.mp h
    obtain rfl := Except.ok.inj h
    obtain ⟨given, rfl, hgiven, hmem⟩ := note_eq_ok hnote
    exact ⟨fun hv => hmem _ (hd.verbose hv), fun _ => hgiven⟩
  · split at h
    · cases h
    · exact hd.note h
  · exact hd.note h

theorem Noted.settle (hd : d.Noted) (h : d.settle = .ok d') : d'.Noted := by
  rw [Draft.settle] at h
  split at h
  · exact Except.ok.inj h ▸ hd
  · exact Noted.apply (d := { d with waiting := none }) ⟨hd.verbose, hd.config⟩ h

theorem Noted.flag (hd : d.Noted) (h : d.flag o long = .ok d') : d'.Noted := by
  obtain ⟨d₁, hsettle, h⟩ := bind_eq_ok.mp h
  exact (hd.settle hsettle).apply h

theorem Noted.attached (hd : d.Noted) (h : d.attached o v = .ok d') : d'.Noted := by
  obtain ⟨d₁, hsettle, h⟩ := bind_eq_ok.mp h
  exact (hd.settle hsettle).apply h

theorem Noted.await (hd : d.Noted) (h : d.await o = .ok d') : d'.Noted := by
  obtain ⟨d₁, hsettle, h⟩ := bind_eq_ok.mp h
  obtain rfl := Except.ok.inj h
  exact ⟨(hd.settle hsettle).verbose, (hd.settle hsettle).config⟩

theorem Noted.readLong (hd : d.Noted) {cs : List Char} (h : d.readLong cs = .ok d') :
    d'.Noted := by
  rw [Draft.readLong] at h
  split at h
  · cases h
  · split at h
    · exact hd.flag h
    · exact hd.await h
  · split at h
    · cases h
    · exact hd.attached h

theorem Noted.readShort (hd : d.Noted) {cs : List Char} (h : d.readShort cs = .ok d') :
    d'.Noted := by
  induction cs generalizing d with
  | nil => exact Except.ok.inj h ▸ hd
  | cons c cs ih =>
    rw [Draft.readShort] at h
    split at h
    · cases h
    · split at h
      · split at h
        · cases h
        · next hflag => exact ih (hd.flag hflag) h
      · split at h
        · exact hd.await h
        · exact hd.attached h
        · exact hd.attached h

/-- A draft that gives arguments: what they say of options with a rival, the draft has noted. -/
structure Gives (d : Draft) (a : Arguments) : Prop where
  noted : d.Noted
  no_rivals : d.rivals? = none
  verbosity : a.verbosity = d.verbosity
  config : a.config = d.config
  quiet : a.quiet = d.given.contains .quiet
  noConfig : a.noConfig = d.given.contains .noConfig

theorem exists_gives_of_finish (hd : d.Noted) (h : d.finish = .ok a) :
    ∃ d' : Draft, d'.Gives a := by
  obtain ⟨d₁, hsettle, h⟩ := bind_eq_ok.mp h
  split at h
  · cases h
  · cases h
  · next hrivals _ =>
    obtain rfl := Except.ok.inj h
    exact ⟨d₁, hd.settle hsettle, hrivals, rfl, rfl, rfl, rfl⟩

theorem exists_gives_of_read (hd : d.Noted) {arguments : List String}
    (h : d.read arguments = .ok a) : ∃ d' : Draft, d'.Gives a := by
  induction arguments generalizing d with
  | nil => exact exists_gives_of_finish hd h
  | cons argument rest ih =>
    unfold Draft.read at h
    split at h
    · split at h
      · exact exists_gives_of_finish hd h
      · cases h
    · split at h
      · cases h
      · next hlong => exact ih (hd.readLong hlong) h
    · split at h
      · cases h
      · next hshort => exact ih (hd.readShort hshort) h
    · split at h
      · exact ih (d := { d with waiting := some (_, some argument) }) ⟨hd.verbose, hd.config⟩ h
      · cases h

theorem Gives.rival_not_mem (h : d.Gives a) {rival : Opt} (ho : o ∈ d.given)
    (hrival : o.rival? = some rival) : rival ∉ d.given := by
  intro hmem
  have hnone := h.no_rivals
  rw [rivals?, List.findSome?_eq_none_iff] at hnone
  simpa [hrival, hmem] using hnone o ho

end
end Draft

section
variable {arguments : List String} {a : Arguments}

/-- The option against configuration files does not go together with one for such a file. -/
theorem noConfig_of_config {p : Path} (h : parse arguments = .ok a)
    (hconfig : a.config = some p) : a.noConfig = false := by
  obtain ⟨d, hd⟩ := Draft.exists_gives_of_read Draft.noted_empty h
  have hgiven : .config ∈ d.given := hd.noted.config (by rw [← hd.config, hconfig]; rfl)
  rw [hd.noConfig, ← Bool.not_eq_true, List.contains_iff_mem]
  exact hd.rival_not_mem hgiven rfl

end
end LicenseHeader.CommandLine
