import LicenseHeader.FileTree.Access
import LicenseHeader.Proofs.Lines
import LicenseHeader.Proofs.Paths

/-! Paths in absolute form: to make a path absolute gives one, and doing it again changes
nothing. -/
namespace LicenseHeader

namespace Path

/-- Whether a path is in absolute form: one slash or two, steps with one slash between them, and
perhaps a slash at the end. The system gives the working directory in this form. -/
inductive Settled : Path → Prop
  | oneSlash : Settled ⟨"/"⟩
  | twoSlashes : Settled ⟨"//"⟩
  | step {p : Path} {c : Component} (h : Settled p) (hc : c.IsStep) : Settled (p.join ⟨c.text⟩)
  | slash {p : Path} (h : Settled p) : Settled (p.join ⟨""⟩)

/-- The components of a path that lead on. -/
def steps (p : Path) : List Component :=
  p.components.filter fun c => c != .root && c != .here

def start (p : Path) : Path :=
  if p.startsWithTwoSlashes then ⟨"//"⟩ else ⟨"/"⟩

/-- A path with components written after it. -/
def along (p : Path) (cs : List Component) : Path :=
  cs.foldl (fun q c => q.join ⟨c.text⟩) p

variable {p q cwd tail : Path} {c : Component} {cs : List Component}

theorem along_concat (p : Path) (cs : List Component) (c : Component) :
    p.along (cs ++ [c]) = (p.along cs).join ⟨c.text⟩ := by
  rw [along, List.foldl_concat]
  rfl

theorem isStep_of_segmentComponent? {segment : List Char} (h : segmentComponent? segment = some c)
    (hslash : '/' ∉ segment) : c.IsStep := by
  rw [segmentComponent?] at h
  split at h
  · cases h
  · next hvoid =>
    split at h
    · obtain rfl := Option.some.inj h
      trivial
    · next hparent =>
      obtain rfl := Option.some.inj h
      rw [isVoid, Bool.or_eq_true, not_or] at hvoid
      obtain ⟨hempty, hhere⟩ := hvoid
      refine ⟨⟨?_, ?_, by simpa using hslash⟩, ?_⟩
      · simpa using hempty
      · intro heq
        exact hhere (by rw [← String.toList_ofList (l := segment), heq]; rfl)
      · intro heq
        exact hparent (by rw [← String.toList_ofList (l := segment), heq]; rfl)

theorem slash_not_mem_of_mem_parts {text segment : List Char} (h : segment ∈ (parts text).2) :
    '/' ∉ segment := by
  unfold parts at h
  split at h
  · exact Text.not_mem_of_mem_splitOn h
  · rw [List.mem_singleton.mp h]
    exact List.not_mem_nil
  · rcases List.mem_cons.mp h with rfl | h
    · exact List.not_mem_nil
    · exact Text.not_mem_of_mem_splitOn h
  · exact Text.not_mem_of_mem_splitOn h

theorem parts_fst {text : List Char} (h : (parts text).1 = some c) : c = .root ∨ c = .here := by
  unfold parts at h
  split at h
  · exact .inl (Option.some.inj h).symm
  · exact .inr (Option.some.inj h).symm
  · exact .inr (Option.some.inj h).symm
  · cases h

theorem isStep_of_mem_steps (h : c ∈ p.steps) : c.IsStep := by
  obtain ⟨hmem, hc⟩ := List.mem_filter.mp h
  have hleads : c ≠ .root ∧ c ≠ .here := by simpa using hc
  rcases List.mem_append.mp hmem with hstart | hrest
  · rcases parts_fst (Option.mem_toList.mp hstart) with rfl | rfl
    · exact absurd rfl hleads.1
    · exact absurd rfl hleads.2
  · obtain ⟨segment, hsegment, hcomponent⟩ := List.mem_filterMap.mp hrest
    exact isStep_of_segmentComponent? hcomponent (slash_not_mem_of_mem_parts hsegment)

theorem ne_empty_of_isAbsolute (h : p.isAbsolute = true) : p.text ≠ "" := by
  intro heq
  rw [isAbsolute, heq] at h
  cases h

theorem not_isAbsolute_empty : Path.isAbsolute ⟨""⟩ = false := rfl

theorem join_slash_of_endsInSlash (h : p.endsInSlash = true) : p.join ⟨""⟩ = p := by
  have htext : (p.join ⟨""⟩).text = p.text := by
    rw [text_join not_isAbsolute_empty, if_pos (.inr h), String.append_empty]
  exact congrArg Path.mk htext

theorem text_join_slash (hp : p.text ≠ "") (h : p.endsInSlash = false) :
    (p.join ⟨""⟩).text = p.text ++ "/" := by
  rw [text_join not_isAbsolute_empty, if_neg (by simp [hp, h]), String.append_empty]

theorem endsInSlash_join_slash (hp : p.text ≠ "") : (p.join ⟨""⟩).endsInSlash = true := by
  cases h : p.endsInSlash with
  | true => rw [join_slash_of_endsInSlash h, h]
  | false =>
    rw [endsInSlash, text_join_slash hp h, String.toList_append]
    simp

/-- A slash at the end has no part in what is written after it. -/
theorem join_slash_join (hp : p.text ≠ "") (h : tail.isAbsolute = false) :
    (p.join ⟨""⟩).join tail = p.join tail := by
  cases hslash : p.endsInSlash with
  | true => rw [join_slash_of_endsInSlash hslash]
  | false =>
    have htext : ((p.join ⟨""⟩).join tail).text = (p.join tail).text := by
      rw [text_join h, if_pos (.inr (endsInSlash_join_slash hp)), text_join_slash hp hslash,
        text_join h, if_neg (by simp [hp, hslash])]
    exact congrArg Path.mk htext

theorem components_join_slash (hp : p.text ≠ "") : (p.join ⟨""⟩).components = p.components := by
  cases h : p.endsInSlash with
  | true => rw [join_slash_of_endsInSlash h]
  | false =>
    have hne : p.text.toList ≠ [] := mt String.toList_eq_nil_iff.mp hp
    have htext : (p.join ⟨""⟩).text.toList = p.text.toList ++ '/' :: [] := by
      rw [text_join_slash hp h, String.toList_append]
      rfl
    rw [components, components, htext, parts_append_slash hne List.not_mem_nil]
    simp [segmentComponent?, isVoid]

theorem toList_join (hp : p.text ≠ "") (h : tail.isAbsolute = false) :
    ∃ rest, (p.join tail).text.toList = p.text.toList ++ rest ∧
      (p.endsInSlash = true → rest.head? ≠ some '/') := by
  rw [text_join h]
  cases hslash : p.endsInSlash with
  | true => exact ⟨tail.text.toList, by simp, fun _ => by simpa [isAbsolute] using h⟩
  | false =>
    exact ⟨'/' :: tail.text.toList, by simp [hp], fun hfalse => absurd hfalse Bool.false_ne_true⟩

theorem startsWithTwoSlashes_join (hp : p.isAbsolute = true) (h : tail.isAbsolute = false) :
    (p.join tail).startsWithTwoSlashes = p.startsWithTwoSlashes := by
  obtain ⟨rest, htext, hrest⟩ := toList_join (ne_empty_of_isAbsolute hp) h
  obtain ⟨cs, hcs⟩ : ∃ cs, p.text.toList = '/' :: cs := by
    rw [isAbsolute, beq_iff_eq] at hp
    exact List.head?_eq_some_iff.mp hp
  rw [endsInSlash, hcs] at hrest
  rw [startsWithTwoSlashes, startsWithTwoSlashes, htext, hcs]
  -- only the first three characters count
  cases cs with
  | nil =>
    cases rest with
    | nil => rfl
    | cons c rest =>
      have hc : c ≠ '/' := by simpa using hrest
      simp [hc]
  | cons d cs =>
    by_cases hd : d = '/'
    · subst hd
      cases cs with
      | nil =>
        cases rest with
        | nil => rfl
        | cons c rest =>
          have hc : c ≠ '/' := by simpa using hrest
          simp [hc]
      | cons e cs => rfl
    · simp [hd]

theorem absolute?_of_isAbsolute (cwd : Path) (h : p.isAbsolute = true) :
    absolute? cwd p = some (if p.endsInSlash then (p.start.along p.steps).join ⟨""⟩
      else p.start.along p.steps) := by
  have hne := ne_empty_of_isAbsolute h
  rw [absolute?, if_neg (by simpa using hne)]
  simp only [h, if_true]
  rfl

theorem steps_join_step (p : Path) (hc : c.IsStep) : (p.join ⟨c.text⟩).steps = p.steps ++ [c] := by
  have hleads : (c != .root && c != .here) = true := by
    cases c with
    | root => exact hc.elim
    | here => exact hc.elim
    | parent => rfl
    | name s => rfl
  rw [steps, components_join_step p hc, List.filter_append, List.filter_singleton, hleads]
  rfl

theorem along_ne_empty (hp : p.text ≠ "") (h : ∀ c ∈ cs, c.IsStep) : (p.along cs).text ≠ "" := by
  induction cs using List.reverseRecOn with
  | nil => exact hp
  | append_singleton cs c =>
    rw [along_concat]
    exact join_ne_empty _ (h c (by simp)).isSegment

theorem start_ne_empty (p : Path) : p.start.text ≠ "" := by
  rw [start]
  split <;> decide

theorem start_join (hp : p.isAbsolute = true) (h : tail.isAbsolute = false) :
    (p.join tail).start = p.start := by
  rw [start, start, startsWithTwoSlashes_join hp h]

/-- The absolute form of an absolute path with one more step is that of the path with the step. -/
theorem absolute?_join_step (hp : p.isAbsolute = true) (hc : c.IsStep)
    (h : absolute? cwd p = some q) :
    absolute? cwd (p.join ⟨c.text⟩) = some (q.join ⟨c.text⟩) := by
  have hrelative := not_isAbsolute_segment hc.isSegment
  have hpath : (p.start.along p.steps).text ≠ "" :=
    along_ne_empty (start_ne_empty p) fun _ => isStep_of_mem_steps
  have hp' : (p.join ⟨c.text⟩).isAbsolute = true := by
    rw [isAbsolute_join (ne_empty_of_isAbsolute hp) hrelative, hp]
  rw [absolute?_of_isAbsolute cwd hp', endsInSlash_join p hc.isSegment, start_join hp hrelative,
    steps_join_step p hc, along_concat]
  rw [absolute?_of_isAbsolute cwd hp, Option.some_inj] at h
  rw [← h, if_neg Bool.false_ne_true]
  split
  · rw [join_slash_join hpath hrelative]
  · rfl

theorem absolute?_join_slash (hp : p.isAbsolute = true) (h : absolute? cwd p = some q) :
    absolute? cwd (p.join ⟨""⟩) = some (q.join ⟨""⟩) := by
  have hne := ne_empty_of_isAbsolute hp
  have hpath : (p.start.along p.steps).text ≠ "" :=
    along_ne_empty (start_ne_empty p) fun _ => isStep_of_mem_steps
  have hp' : (p.join ⟨""⟩).isAbsolute = true := by
    rw [isAbsolute_join hne not_isAbsolute_empty, hp]
  rw [absolute?_of_isAbsolute cwd hp', endsInSlash_join_slash hne, if_pos rfl,
    start_join hp not_isAbsolute_empty, steps, components_join_slash hne]
  rw [absolute?_of_isAbsolute cwd hp, Option.some_inj] at h
  rw [← h]
  split
  · rw [join_slash_join hpath not_isAbsolute_empty]
    rfl
  · rfl

theorem Settled.isAbsolute (h : Settled p) : p.isAbsolute = true := by
  induction h with
  | oneSlash => rfl
  | twoSlashes => rfl
  | step _ hc ih =>
    rw [isAbsolute_join (ne_empty_of_isAbsolute ih) (not_isAbsolute_segment hc.isSegment), ih]
  | slash _ ih => rw [isAbsolute_join (ne_empty_of_isAbsolute ih) not_isAbsolute_empty, ih]

/-- A path in absolute form is its own, from wherever it is seen. -/
theorem Settled.absolute?_eq (h : Settled p) (cwd : Path) : absolute? cwd p = some p := by
  induction h with
  | oneSlash =>
    rw [absolute?_of_isAbsolute cwd rfl]
    decide +kernel
  | twoSlashes =>
    rw [absolute?_of_isAbsolute cwd rfl]
    decide +kernel
  | step h hc ih => exact absolute?_join_step h.isAbsolute hc ih
  | slash h ih => exact absolute?_join_slash h.isAbsolute ih

/-- What holds of the working directory and of the one or two slashes that an absolute path starts
with, and stays when a step or a slash is written behind, holds of every absolute form. -/
theorem absolute?_induct {P : Path → Prop} (oneSlash : P ⟨"/"⟩) (twoSlashes : P ⟨"//"⟩)
    (step : ∀ {p : Path} {c : Component}, P p → c.IsStep → P (p.join ⟨c.text⟩))
    (slash : ∀ {p : Path}, P p → P (p.join ⟨""⟩)) (hcwd : P cwd)
    (h : absolute? cwd p = some q) : P q := by
  have halong (start : Path) (cs : List Component) (hstart : P start) (hcs : ∀ c ∈ cs, c.IsStep) :
      P (start.along cs) := by
    induction cs using List.reverseRecOn with
    | nil => exact hstart
    | append_singleton cs c ih =>
      rw [along_concat]
      exact step (ih fun c hc => hcs c (by simp [hc])) (hcs c (by simp))
  have hform (start : Path) (hstart : P start) :
      P (if p.endsInSlash then (start.along p.steps).join ⟨""⟩ else start.along p.steps) := by
    have hsteps := halong start p.steps hstart fun _ => isStep_of_mem_steps
    split
    · exact slash hsteps
    · exact hsteps
  rw [absolute?] at h
  split at h
  · cases h
  · rw [Option.some_inj] at h
    rw [← h]
    apply hform
    split
    · exact twoSlashes
    · split
      · exact oneSlash
      · exact hcwd

/-- The absolute form of a path, seen from a directory in absolute form, is in absolute form. -/
theorem settled_of_absolute? (hcwd : Settled cwd) (h : absolute? cwd p = some q) : Settled q :=
  absolute?_induct .oneSlash .twoSlashes .step .slash hcwd h

theorem isAbsolute_of_absolute? (hcwd : cwd.isAbsolute = true) (h : absolute? cwd p = some q) :
    q.isAbsolute = true := by
  have hjoin {p tail : Path} (hp : p.isAbsolute = true) (htail : tail.isAbsolute = false) :
      (p.join tail).isAbsolute = true := by
    rw [isAbsolute_join (ne_empty_of_isAbsolute hp) htail, hp]
  exact absolute?_induct (P := fun p => p.isAbsolute = true) rfl rfl
    (fun hp hc => hjoin hp (not_isAbsolute_segment hc.isSegment))
    (fun hp => hjoin hp not_isAbsolute_empty) hcwd h

end Path

namespace FileSystem

variable {fs : FileSystem} {p q : Path}

theorem absolute_eq_ok : fs.absolute p = .ok q ↔ Path.absolute? fs.cwd p = some q := by
  rw [absolute]
  cases Path.absolute? fs.cwd p <;> simp

theorem absolute_absolute (hcwd : fs.cwd.Settled) (h : fs.absolute p = .ok q) :
    fs.absolute q = .ok q := by
  have hq : q.Settled := Path.settled_of_absolute? hcwd (absolute_eq_ok.mp h)
  exact absolute_eq_ok.mpr (hq.absolute?_eq fs.cwd)

end FileSystem
end LicenseHeader
