import LicenseHeader.Proofs.Encoding
import LicenseHeader.Text
import Mathlib.Data.List.DropRight

/-! Lines of texts: what is before the first newline and what is after it. -/
namespace LicenseHeader.Text

/-- Induction on texts, line by line. -/
theorem lines_induct {P : List Char → Prop} (last : ∀ l, '\n' ∉ l → P l)
    (line : ∀ l r, '\n' ∉ l → P r → P (l ++ '\n' :: r)) (cs : List Char) : P cs := by
  by_cases h : '\n' ∈ cs
  · obtain ⟨l, r, heq, hl⟩ := List.eq_append_cons_of_mem h
    have hlen : r.length < cs.length := by
      rw [heq, List.length_append, List.length_cons]
      omega
    rw [heq]
    exact line l r hl (lines_induct last line r)
  · exact last cs h
termination_by cs.length

theorem firstLine_of_not_mem {cs : List Char} (h : '\n' ∉ cs) : firstLine cs = cs := by
  induction cs with
  | nil => rfl
  | cons c cs ih =>
    rw [List.mem_cons, not_or] at h
    rw [firstLine, if_neg (Ne.symm h.1), ih h.2]

theorem firstLine_append {l : List Char} (h : '\n' ∉ l) (r : List Char) :
    firstLine (l ++ '\n' :: r) = l ++ ['\n'] := by
  induction l with
  | nil => rfl
  | cons c l ih =>
    rw [List.mem_cons, not_or] at h
    rw [List.cons_append, firstLine, if_neg (Ne.symm h.1), ih h.2]
    rfl

/-- Texts with one start have one first line. -/
theorem line_isPrefix_line {a b s t : List Char} (ha : '\n' ∉ a) (hb : '\n' ∉ b)
    (h : a ++ '\n' :: s <+: b ++ '\n' :: t) : a = b ∧ s <+: t := by
  induction a generalizing b with
  | nil =>
    cases b with
    | nil => exact ⟨rfl, (List.cons_prefix_cons.mp h).2⟩
    | cons d b =>
      have hd : '\n' = d := (List.cons_prefix_cons.mp h).1
      simp [← hd] at hb
  | cons c a ih =>
    cases b with
    | nil =>
      have hc : c = '\n' := (List.cons_prefix_cons.mp h).1
      simp [hc] at ha
    | cons d b =>
      obtain ⟨hcd, hrest⟩ := List.cons_prefix_cons.mp h
      rw [List.mem_cons, not_or] at ha hb
      obtain ⟨hab, hst⟩ := ih ha.2 hb.2 hrest
      exact ⟨by rw [hcd, hab], hst⟩

/-- A text without a character that starts another starts what is before that character there. -/
theorem isPrefix_of_append_cons {a b t : List Char} {c : Char} (ha : c ∉ a)
    (h : a <+: b ++ c :: t) : a <+: b := by
  rcases List.prefix_or_prefix_of_prefix h (List.prefix_append b (c :: t)) with h' | ⟨u, rfl⟩
  · exact h'
  · cases u with
    | nil => simp
    | cons d u =>
      have hd : d = c :=
        (List.cons_prefix_cons.mp ((List.prefix_append_right_inj b).mp h)).1
      simp [hd] at ha

theorem newline_mem_encode {cs : List Char} : (0x0A : UInt8) ∈ encode cs ↔ '\n' ∈ cs :=
  mem_encode_iff (c := '\n') (by decide)

theorem splitOn_encode (cs : List Char) :
    (encode cs).splitOn 0x0A = (cs.splitOn '\n').map encode := by
  induction cs using lines_induct with
  | last l hl =>
    rw [List.splitOn_eq_singleton hl, List.splitOn_eq_singleton (mt newline_mem_encode.mp hl)]
    rfl
  | line l r hl ih =>
    have hsplit : encode (l ++ '\n' :: r) = encode l ++ 0x0A :: encode r := encode_append l _
    rw [hsplit, List.splitOn_append_cons_self_of_not_mem (mt newline_mem_encode.mp hl), ih,
      List.splitOn_append_cons_self_of_not_mem hl, List.map_cons]

theorem not_mem_of_mem_splitOn {sep : Char} {cs l : List Char} (h : l ∈ cs.splitOn sep) :
    sep ∉ l := by
  induction cs generalizing l with
  | nil =>
    rw [List.splitOn_nil, List.mem_singleton] at h
    rw [h]
    exact List.not_mem_nil
  | cons c cs ih =>
    rw [List.splitOn_cons_eq_if_modifyHead] at h
    split at h
    · rcases List.mem_cons.mp h with rfl | h
      · exact List.not_mem_nil
      · exact ih h
    · next hc =>
      obtain ⟨first, rest, hsplit⟩ := List.exists_cons_of_ne_nil (List.splitOn_ne_nil sep cs)
      rw [hsplit] at ih
      rw [hsplit, List.modifyHead_cons] at h
      rcases List.mem_cons.mp h with rfl | h
      · have hne : sep ≠ c := fun heq => hc (beq_iff_eq.mpr heq.symm)
        rw [List.mem_cons, not_or]
        exact ⟨hne, ih List.mem_cons_self⟩
      · exact ih (List.mem_cons_of_mem first h)

theorem exists_line_of_text (cs : List Char) :
    ∃ l ∈ cs.splitOn '\n', cs = l ∨ ∃ r, cs = l ++ '\n' :: r := by
  by_cases hn : '\n' ∈ cs
  · obtain ⟨l, r, rfl, hl⟩ := List.eq_append_cons_of_mem hn
    refine ⟨l, ?_, .inr ⟨r, rfl⟩⟩
    rw [List.splitOn_append_cons_self_of_not_mem hl]
    exact List.mem_cons_self
  · exact ⟨cs, by rw [List.splitOn_eq_singleton hn]; exact List.mem_singleton_self cs, .inl rfl⟩

theorem dropBlankEnd_isPrefix (cs : List Char) : dropBlankEnd cs <+: cs :=
  List.rdropWhile_prefix isBlank cs

theorem dropBlankEnd_append (a b : List Char) :
    dropBlankEnd (a ++ b) =
      if dropBlankEnd b = [] then dropBlankEnd a else a ++ dropBlankEnd b := by
  rw [dropBlankEnd, List.reverse_append, List.dropWhile_append]
  simp only [List.isEmpty_iff, dropBlankEnd, List.reverse_eq_nil_iff]
  split
  · rfl
  · rw [List.reverse_append, List.reverse_reverse]

/-- What stands before a text does not hide a difference in it that is more than blanks at the
end. -/
theorem dropBlankEnd_append_inj {a b c : List Char} :
    dropBlankEnd (a ++ b) = dropBlankEnd (a ++ c) ↔ dropBlankEnd b = dropBlankEnd c := by
  have hlen := (dropBlankEnd_isPrefix a).length_le
  have hne {b : List Char} (hb : dropBlankEnd b ≠ []) :
      dropBlankEnd a ≠ a ++ dropBlankEnd b := by
    intro heq
    have hpos := List.length_pos_of_ne_nil hb
    rw [heq, List.length_append] at hlen
    omega
  rw [dropBlankEnd_append, dropBlankEnd_append]
  by_cases hb : dropBlankEnd b = []
  · by_cases hc : dropBlankEnd c = []
    · simp [hb, hc]
    · rw [if_pos hb, if_neg hc, hb]
      exact ⟨fun h => absurd h (hne hc), fun h => absurd h.symm hc⟩
  · by_cases hc : dropBlankEnd c = []
    · rw [if_neg hb, if_pos hc, hc]
      exact ⟨fun h => absurd h.symm (hne hb), fun h => absurd h hb⟩
    · rw [if_neg hb, if_neg hc, List.append_cancel_left_eq]

/-- Lines with their newlines, and a last one without. -/
def closed (ls : List (List Char)) (last : List Char) : List Char :=
  ls.foldr (fun l rest => l ++ '\n' :: rest) last

@[simp] theorem closed_nil (last : List Char) : closed [] last = last := rfl

@[simp] theorem closed_cons (l : List Char) (ls : List (List Char)) (last : List Char) :
    closed (l :: ls) last = l ++ '\n' :: closed ls last := rfl

theorem intercalate_append_last (ls : List (List Char)) (last : List Char) :
    ['\n'].intercalate (ls ++ [last]) = closed ls last := by
  induction ls with
  | nil => simp
  | cons l ls ih =>
    have hne : ls ++ [last] ≠ [] := by simp
    obtain ⟨next, rest, heq⟩ := List.exists_cons_of_ne_nil hne
    rw [List.cons_append, heq, List.intercalate_cons_cons, ← heq, ih, closed_cons,
      List.append_assoc, List.singleton_append]

/-- Two runs of lines before the same last line, which none of them starts with, are told apart
by their texts, whatever follows. -/
theorem closed_isPrefix_iff {ls ms : List (List Char)} {last rest : List Char}
    (hlast : '\n' ∉ last) (hls : ∀ l ∈ ls, '\n' ∉ l ∧ ¬ last <+: l)
    (hms : ∀ m ∈ ms, '\n' ∉ m ∧ ¬ last <+: m) :
    closed ls last <+: closed ms last ++ rest ↔ ls = ms := by
  induction ls generalizing ms with
  | nil =>
    cases ms with
    | nil => exact ⟨fun _ => rfl, fun _ => List.prefix_append last rest⟩
    | cons m ms =>
      refine ⟨fun h => ?_, nofun⟩
      rw [closed_nil, closed_cons, List.append_assoc, List.cons_append] at h
      exact absurd (isPrefix_of_append_cons hlast h) (hms m List.mem_cons_self).2
  | cons l ls ih =>
    obtain ⟨⟨hl, hclose⟩, hls⟩ := List.forall_mem_cons.mp hls
    cases ms with
    | nil =>
      refine ⟨fun h => ?_, nofun⟩
      -- of the first line and the last, both at the start of one text, one starts the other
      have hfirst : l ++ ['\n'] <+: last ++ rest :=
        (List.prefix_append (l ++ ['\n']) (closed ls last)).trans (by simpa using h)
      rcases List.prefix_or_prefix_of_prefix hfirst (List.prefix_append last rest) with h' | h'
      · exact absurd (h'.subset (by simp)) hlast
      · exact absurd (isPrefix_of_append_cons hlast h') hclose
    | cons m ms =>
      obtain ⟨⟨hm, -⟩, hms⟩ := List.forall_mem_cons.mp hms
      rw [List.cons.injEq, ← ih hls hms, closed_cons, closed_cons, List.append_assoc,
        List.cons_append]
      constructor
      · exact line_isPrefix_line hl hm
      · rintro ⟨rfl, h⟩
        exact (List.prefix_append_right_inj l).mpr (List.cons_prefix_cons.mpr ⟨rfl, h⟩)

end LicenseHeader.Text

