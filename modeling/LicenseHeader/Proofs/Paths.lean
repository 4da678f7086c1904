import LicenseHeader.Proofs.Tree
import Mathlib.Data.List.TakeWhile

/-! Paths with a segment written after them: their components, and what they say of the file, its
extension included. -/
namespace LicenseHeader

/-- A segment that says something. -/
structure IsSegment (s : String) : Prop where
  nonempty : s ≠ ""
  not_here : s ≠ "."
  no_slash : '/' ∉ s.toList

theorem IsName.isSegment {name : String} (h : IsName name) : IsSegment name :=
  ⟨h.nonempty, h.not_here, h.no_slash⟩

/-- A component that leads on, by a name or to a parent. -/
def Component.IsStep : Component → Prop
  | parent => True
  | name s => IsSegment s ∧ s ≠ ".."
  | _ => False

theorem IsName.isStep {name : String} (h : IsName name) : (Component.name name).IsStep :=
  ⟨h.isSegment, h.not_parent⟩

theorem Component.IsStep.isSegment {c : Component} (h : c.IsStep) : IsSegment c.text := by
  cases c with
  | root => exact h.elim
  | here => exact h.elim
  | parent => exact ⟨by decide, by decide, by decide⟩
  | name s => exact h.1

namespace Path

theorem splitOn_append_slash {cs name : List Char} (h : '/' ∉ name) :
    (cs ++ '/' :: name).splitOn '/' = cs.splitOn '/' ++ [name] := by
  rw [List.splitOn_append_cons_self, List.splitOn_eq_singleton h]

private theorem parts_of_ne {c : Char} {cs : List Char} (hs : c ≠ '/')
    (hd : c = '.' → cs ≠ [] ∧ cs.head? ≠ some '/') :
    parts (c :: cs) = (none, (c :: cs).splitOn '/') := by
  unfold parts
  split
  · next heq => exact absurd (List.cons.inj heq).1 hs
  · next heq =>
    obtain ⟨rfl, rfl⟩ := List.cons.inj heq
    exact absurd rfl (hd rfl).1
  · next heq =>
    obtain ⟨rfl, rfl⟩ := List.cons.inj heq
    exact absurd rfl (hd rfl).2
  · rfl

theorem parts_append_slash {cs name : List Char} (hne : cs ≠ []) (h : '/' ∉ name) :
    parts (cs ++ '/' :: name) = ((parts cs).1, (parts cs).2 ++ [name]) := by
  cases cs with
  | nil => exact absurd rfl hne
  | cons c cs =>
    by_cases hs : c = '/'
    · subst c
      exact congrArg (Prod.mk _) (splitOn_append_slash h)
    · by_cases hd : c = '.' → cs ≠ [] ∧ cs.head? ≠ some '/'
      · have hd' : c = '.' → cs ++ '/' :: name ≠ [] ∧ (cs ++ '/' :: name).head? ≠ some '/' := by
          intro hc
          obtain ⟨hcs, hhead⟩ := hd hc
          obtain ⟨d, ds, rfl⟩ := List.exists_cons_of_ne_nil hcs
          exact ⟨List.cons_ne_nil _ _, hhead⟩
        rw [parts_of_ne hs hd, List.cons_append, parts_of_ne hs hd', ← List.cons_append,
          splitOn_append_slash h]
      · obtain ⟨rfl, hd⟩ := Classical.not_imp.mp hd
        cases cs with
        | nil => exact congrArg (Prod.mk _ ∘ List.cons []) (List.splitOn_eq_singleton h)
        | cons d cs =>
          have hds : d = '/' := by simpa using hd
          subst d
          exact congrArg (Prod.mk _ ∘ List.cons []) (splitOn_append_slash h)

variable {p tail : Path} {name s : String} {c : Component}

theorem not_isAbsolute_segment (h : IsSegment s) : Path.isAbsolute ⟨s⟩ = false := by
  cases hcs : s.toList with
  | nil => simp [isAbsolute, hcs]
  | cons c cs =>
    have hc : c ≠ '/' := by
      rintro rfl
      exact h.no_slash (by simp [hcs])
    simp [isAbsolute, hcs, hc]

theorem text_join (h : tail.isAbsolute = false) :
    (p.join tail).text =
      if p.text = "" ∨ p.endsInSlash = true then p.text ++ tail.text
      else p.text ++ "/" ++ tail.text := by
  rw [join, if_neg (by simp [h])]
  by_cases hp : p.text = "" ∨ p.endsInSlash = true
  · rw [if_pos hp, if_pos (by simpa using hp)]
  · rw [if_neg hp, if_neg (by simpa using hp)]

theorem join_ne_empty (p : Path) (h : IsSegment s) : (p.join ⟨s⟩).text ≠ "" := by
  rw [text_join (not_isAbsolute_segment h)]
  split <;> simp [h.nonempty]

theorem isAbsolute_join (hp : p.text ≠ "") (h : tail.isAbsolute = false) :
    (p.join tail).isAbsolute = p.isAbsolute := by
  have hne : p.text.toList ≠ [] := mt String.toList_eq_nil_iff.mp hp
  obtain ⟨c, cs, hcs⟩ := List.exists_cons_of_ne_nil hne
  rw [isAbsolute, isAbsolute, text_join h]
  split <;> simp [hcs]

theorem endsInSlash_join (p : Path) (h : IsSegment s) : (p.join ⟨s⟩).endsInSlash = false := by
  rcases List.eq_nil_or_concat s.toList with hcs | ⟨before, c, hcs⟩
  · exact absurd (String.toList_eq_nil_iff.mp hcs) h.nonempty
  · rw [List.concat_eq_append] at hcs
    have hc : c ≠ '/' := by
      rintro rfl
      exact h.no_slash (by simp [hcs])
    have hlast (before' : String) : ((before' ++ s).toList.getLast? == some '/') = false := by
      rw [String.toList_append, hcs, ← List.append_assoc, List.getLast?_concat]
      simp [hc]
    rw [endsInSlash, text_join (not_isAbsolute_segment h)]
    split
    · exact hlast p.text
    · exact hlast (p.text ++ "/")

/-- After a path without a slash at its end, a segment is one more, and nothing else is. -/
theorem parts_join_of_not_endsInSlash (hp : p.text ≠ "") (hslash : p.endsInSlash = false)
    (h : IsSegment s) :
    parts (p.join ⟨s⟩).text.toList = ((parts p.text.toList).1,
      (parts p.text.toList).2 ++ [s.toList]) := by
  have hne : p.text.toList ≠ [] := mt String.toList_eq_nil_iff.mp hp
  rw [text_join (not_isAbsolute_segment h), if_neg (by simp [hp, hslash]),
    ← parts_append_slash hne h.no_slash]
  simp

theorem parts_segment (h : IsSegment s) : parts s.toList = (none, [s.toList]) := by
  cases hcs : s.toList with
  | nil => exact absurd (String.toList_eq_nil_iff.mp hcs) h.nonempty
  | cons c cs =>
    have hslash : '/' ∉ c :: cs := hcs ▸ h.no_slash
    rw [List.mem_cons, not_or] at hslash
    rw [parts_of_ne (Ne.symm hslash.1), List.splitOn_eq_singleton (by simpa using hslash)]
    rintro rfl
    refine ⟨?_, fun hhead => hslash.2 (List.mem_of_head? hhead)⟩
    rintro rfl
    exact h.not_here (String.toList_inj.mp hcs)

/-- A segment after a path is one more, and the rest says what it said before. -/
theorem parts_join (p : Path) (h : IsSegment s) :
    ∃ segments, parts (p.join ⟨s⟩).text.toList =
        ((parts p.text.toList).1, segments ++ [s.toList]) ∧
      segments.filterMap segmentComponent? =
        (parts p.text.toList).2.filterMap segmentComponent? := by
  by_cases hempty : p.text = ""
  · refine ⟨[], ?_, by simp [hempty, parts, segmentComponent?, isVoid]⟩
    rw [text_join (not_isAbsolute_segment h), if_pos (.inl hempty), hempty, String.empty_append,
      parts_segment h]
    rfl
  · by_cases hslash : p.endsInSlash = true
    · rw [text_join (not_isAbsolute_segment h), if_pos (.inr hslash), String.toList_append]
      obtain ⟨cs, hcs⟩ : ∃ cs, p.text.toList = cs ++ ['/'] := by
        rw [endsInSlash, beq_iff_eq] at hslash
        exact List.getLast?_eq_some_iff.mp hslash
      rw [hcs]
      cases cs with
      | nil =>
        refine ⟨[], ?_, by simp [parts, segmentComponent?, isVoid]⟩
        simp [parts, List.splitOn_eq_singleton h.no_slash]
      | cons c cs =>
        have hne : c :: cs ≠ [] := List.cons_ne_nil c cs
        refine ⟨(parts (c :: cs)).2, ?_, ?_⟩
        · rw [List.append_assoc, List.singleton_append, parts_append_slash hne h.no_slash,
            parts_append_slash hne List.not_mem_nil]
        · rw [parts_append_slash hne List.not_mem_nil]
          simp [segmentComponent?, isVoid]
    · have hslash : p.endsInSlash = false := by simpa using hslash
      exact ⟨(parts p.text.toList).2, parts_join_of_not_endsInSlash hempty hslash h, rfl⟩

theorem not_isVoid_segment (h : IsSegment s) : isVoid s.toList = false := by
  have hempty : s.toList ≠ [] := mt String.toList_eq_nil_iff.mp h.nonempty
  have hhere : s.toList ≠ ['.'] := fun heq => h.not_here (String.toList_inj.mp heq)
  simp [isVoid, hempty, hhere]

theorem segmentComponent?_eq_none {segment : List Char} :
    segmentComponent? segment = none ↔ isVoid segment = true := by
  rw [segmentComponent?]
  split
  · next h => simp [h]
  · next h => split <;> simp [h]

theorem segmentComponent?_text (h : c.IsStep) : segmentComponent? c.text.toList = some c := by
  cases c with
  | root => exact h.elim
  | here => exact h.elim
  | parent => rfl
  | name s =>
    have hparent : s.toList ≠ ['.', '.'] := fun heq => h.2 (String.toList_inj.mp heq)
    simp [Component.text, segmentComponent?, not_isVoid_segment h.1, hparent]

theorem components_join_step (p : Path) (h : c.IsStep) :
    (p.join ⟨c.text⟩).components = p.components ++ [c] := by
  obtain ⟨segments, hparts, hsame⟩ := parts_join p h.isSegment
  rw [components, components, hparts]
  simp [hsame, segmentComponent?_text h]

theorem components_join (p : Path) (h : IsName name) :
    (p.join ⟨name⟩).components = p.components ++ [.name name] :=
  components_join_step (c := .name name) p h.isStep

theorem components_name (hne : name ≠ "") (hslash : '/' ∉ name.toList)
    (hdot : name.toList.head? ≠ some '.') : (⟨name⟩ : Path).components = [.name name] := by
  have hhere : name ≠ "." := by
    rintro rfl
    exact hdot rfl
  have hparent : name ≠ ".." := by
    rintro rfl
    exact hdot rfl
  have hsegment : IsSegment name := ⟨hne, hhere, hslash⟩
  have hname : segmentComponent? name.toList = some (.name name) :=
    segmentComponent?_text (c := .name name) ⟨hsegment, hparent⟩
  rw [components, parts_segment hsegment]
  simp [hname]

theorem namesDirectory_join (p : Path) (h : IsName name) :
    (p.join ⟨name⟩).namesDirectory = false := by
  obtain ⟨segments, hparts, -⟩ := parts_join p h.isSegment
  simp [namesDirectory, hparts, not_isVoid_segment h.isSegment]

theorem nul_mem_join (p : Path) (h : IsName name) :
    '\x00' ∈ (p.join ⟨name⟩).text.toList ↔ '\x00' ∈ p.text.toList := by
  rw [text_join (not_isAbsolute_segment h.isSegment)]
  split <;> simp [h.no_nul]

theorem namesDirectory_of_endsInSlash (h : p.endsInSlash = true) : p.namesDirectory = true := by
  rw [endsInSlash, beq_iff_eq] at h
  obtain ⟨cs, hcs⟩ := List.getLast?_eq_some_iff.mp h
  cases cs with
  | nil => simp [namesDirectory, hcs, parts, isVoid]
  | cons c cs =>
    rw [namesDirectory, hcs, parts_append_slash (List.cons_ne_nil c cs) List.not_mem_nil]
    simp [isVoid]

variable {cs stem ext : List Char}

private theorem ne_dot_of_mem_reverse (h : '.' ∉ cs) : ∀ c ∈ cs.reverse, (c != '.') = true := by
  intro c hc
  rw [bne_iff_ne]
  rintro rfl
  exact h (List.mem_reverse.mp hc)

private theorem cutAtDot?_append (stem : List Char) (h : '.' ∉ ext) :
    cutAtDot? (stem ++ '.' :: ext) = if stem = [] then none else some (stem, ext) := by
  have hext := ne_dot_of_mem_reverse h
  have hrev : (stem ++ '.' :: ext).reverse = ext.reverse ++ '.' :: stem.reverse := by simp
  rw [cutAtDot?, hrev, List.dropWhile_append_of_pos hext, List.takeWhile_append_of_pos hext]
  cases hstem : stem.reverse with
  | nil => simp [List.reverse_eq_nil_iff.mp hstem]
  | cons c before =>
    obtain rfl : stem = (c :: before).reverse := by rw [← hstem, List.reverse_reverse]
    simp

theorem cutAtDot?_eq_some :
    cutAtDot? cs = some (stem, ext) ↔ stem ≠ [] ∧ cs = stem ++ '.' :: ext ∧ '.' ∉ ext := by
  constructor
  · intro h
    by_cases hdot : '.' ∈ cs
    · obtain ⟨after, before, hrev, hafter⟩ :=
        List.eq_append_cons_of_mem (List.mem_reverse.mpr hdot)
      have hcs : cs = before.reverse ++ '.' :: after.reverse := by
        rw [← List.reverse_reverse cs, hrev]
        simp
      rw [hcs, cutAtDot?_append _ (by simpa using hafter)] at h
      split at h
      · cases h
      · next hne =>
        obtain ⟨rfl, rfl⟩ := Prod.mk.inj (Option.some.inj h)
        exact ⟨hne, hcs, by simpa using hafter⟩
    · have hdrop : cs.reverse.dropWhile (· != '.') = [] :=
        List.dropWhile_eq_nil_iff.mpr (ne_dot_of_mem_reverse hdot)
      rw [cutAtDot?, hdrop] at h
      cases h
  · rintro ⟨hne, rfl, hdot⟩
    rw [cutAtDot?_append stem hdot, if_neg hne]

theorem nameExtension?_eq_some {extension : String} : nameExtension? name = some extension ↔
    ∃ stem ≠ [], name.toList = stem ++ '.' :: extension.toList ∧ '.' ∉ extension.toList := by
  rw [nameExtension?, Option.map_eq_some_iff]
  constructor
  · rintro ⟨⟨stem, ext⟩, hcut, rfl⟩
    obtain ⟨hne, hname, hdot⟩ := cutAtDot?_eq_some.mp hcut
    exact ⟨stem, hne, by simpa using hname, by simpa using hdot⟩
  · rintro ⟨stem, hne, hname, hdot⟩
    exact ⟨_, cutAtDot?_eq_some.mpr ⟨hne, hname, hdot⟩, String.ofList_toList⟩

theorem extension?_join (p : Path) (h : IsName name) :
    (p.join ⟨name⟩).extension? = nameExtension? name := by
  rw [extension?, fileName?, components_join p h, List.getLast?_concat]
  rfl

/-- A name that does not start with a dot is a path to what it names. -/
theorem extension?_name (hslash : '/' ∉ name.toList) (hdot : name.toList.head? ≠ some '.') :
    (⟨name⟩ : Path).extension? = nameExtension? name := by
  by_cases hempty : name = ""
  · subst hempty
    rfl
  · rw [extension?, fileName?, components_name hempty hslash hdot]
    rfl

end Path
end LicenseHeader
