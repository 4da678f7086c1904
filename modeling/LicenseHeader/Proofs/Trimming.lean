import LicenseHeader.Proofs.Lines

/-! Trimming each line of a text at its end, and how it goes together with trimming the text as a
whole. -/
namespace LicenseHeader.Text

variable {l cs : List Char} {p : Char → Bool}

/-- A text without the blanks at the ends of its lines. -/
def trimLines (cs : List Char) : List Char :=
  ['\n'].intercalate ((cs.splitOn '\n').map dropBlankEnd)

theorem trimLines_of_not_mem (h : '\n' ∉ l) : trimLines l = dropBlankEnd l := by
  rw [trimLines, List.splitOn_eq_singleton h]
  simp

theorem trimLines_append (h : '\n' ∉ l) (r : List Char) :
    trimLines (l ++ '\n' :: r) = dropBlankEnd l ++ '\n' :: trimLines r := by
  obtain ⟨first, rest, hr⟩ := List.exists_cons_of_ne_nil (List.splitOn_ne_nil '\n' r)
  rw [trimLines, List.splitOn_append_cons_self_of_not_mem h, trimLines, hr, List.map_cons,
    List.map_cons, List.intercalate_cons_cons]
  simp

/-- Texts are trimmed to the same one exactly if their lines are. -/
theorem trimLines_inj {a b : List Char} : trimLines a = trimLines b ↔
    (a.splitOn '\n').map dropBlankEnd = (b.splitOn '\n').map dropBlankEnd := by
  have hsplit (cs : List Char) :
      (trimLines cs).splitOn '\n' = (cs.splitOn '\n').map dropBlankEnd := by
    rw [trimLines, List.splitOn_intercalate]
    · intro l hl hn
      obtain ⟨m, hm, rfl⟩ := List.mem_map.mp hl
      exact not_mem_of_mem_splitOn hm ((dropBlankEnd_isPrefix m).subset hn)
    · simp
  constructor
  · intro h
    rw [← hsplit a, ← hsplit b, h]
  · intro h
    rw [trimLines, trimLines, h]

theorem dropBlankEnd_eq_nil_iff : dropBlankEnd cs = [] ↔ ∀ c ∈ cs, isBlank c = true :=
  List.rdropWhile_eq_nil_iff

theorem dropBlankEnd_dropBlankEnd (cs : List Char) :
    dropBlankEnd (dropBlankEnd cs) = dropBlankEnd cs :=
  List.rdropWhile_idempotent isBlank cs

theorem dropBlankEnd_cons (c : Char) (cs : List Char) :
    dropBlankEnd (c :: cs) =
      if dropBlankEnd cs = [] then dropBlankEnd [c] else c :: dropBlankEnd cs :=
  dropBlankEnd_append [c] cs

theorem dropBlankEnd_append_line (l r : List Char) :
    dropBlankEnd (l ++ '\n' :: r) =
      if dropBlankEnd r = [] then dropBlankEnd l else l ++ '\n' :: dropBlankEnd r := by
  have hnewline : dropBlankEnd ['\n'] = [] := by decide
  rw [dropBlankEnd_append, dropBlankEnd_cons]
  by_cases hr : dropBlankEnd r = []
  · simp [hr, hnewline]
  · simp [hr]

/-- What goes at the front and what goes at the end have nothing to do with each other. -/
theorem dropBlankEnd_dropWhile (p : Char → Bool) (cs : List Char) :
    dropBlankEnd (cs.dropWhile p) = (dropBlankEnd cs).dropWhile p := by
  induction cs with
  | nil => rfl
  | cons c cs ih =>
    have hone : dropBlankEnd [c] = [] ∨ dropBlankEnd [c] = [c] := by
      cases hc : isBlank c <;> simp [dropBlankEnd, hc]
    by_cases hc : p c = true
    · rw [List.dropWhile_cons_of_pos hc, ih, dropBlankEnd_cons]
      by_cases hcs : dropBlankEnd cs = []
      · rw [if_pos hcs, hcs]
        rcases hone with h | h <;> simp [h, hc]
      · rw [if_neg hcs, List.dropWhile_cons_of_pos hc]
    · rw [List.dropWhile_cons_of_neg hc, dropBlankEnd_cons]
      by_cases hcs : dropBlankEnd cs = []
      · rw [if_pos hcs]
        rcases hone with h | h <;> simp [h, hc]
      · rw [if_neg hcs, List.dropWhile_cons_of_neg hc]

private theorem dropWhile_line (hp : p '\n' = false) (l r : List Char) :
    (l ++ '\n' :: r).dropWhile p = l.dropWhile p ++ '\n' :: r := by
  have hr : ('\n' :: r).dropWhile p = '\n' :: r := List.dropWhile_cons_of_neg (by simp [hp])
  rw [List.dropWhile_append, hr]
  split
  · next hl => rw [List.isEmpty_iff.mp hl, List.nil_append]
  · rfl

private theorem not_mem_dropWhile (h : '\n' ∉ l) : '\n' ∉ l.dropWhile p :=
  fun hmem => h ((List.dropWhile_suffix p).subset hmem)

/-- Characters other than newlines at the front go in the same way before and after. -/
theorem trimLines_dropWhile (hp : p '\n' = false) (cs : List Char) :
    trimLines (cs.dropWhile p) = (trimLines cs).dropWhile p := by
  induction cs using lines_induct with
  | last l hl =>
    rw [trimLines_of_not_mem hl, trimLines_of_not_mem (not_mem_dropWhile hl),
      dropBlankEnd_dropWhile]
  | line l r hl _ =>
    rw [dropWhile_line hp, trimLines_append hl, trimLines_append (not_mem_dropWhile hl),
      dropWhile_line hp, dropBlankEnd_dropWhile]

theorem trimLines_dropBlankStart (cs : List Char) :
    trimLines (cs.dropWhile isBlank) = (trimLines cs).dropWhile isBlank := by
  have hnewline (r : List Char) : ('\n' :: r).dropWhile isBlank = r.dropWhile isBlank :=
    List.dropWhile_cons_of_pos (by decide)
  induction cs using lines_induct with
  | last l hl =>
    rw [trimLines_of_not_mem hl, trimLines_of_not_mem (not_mem_dropWhile hl),
      dropBlankEnd_dropWhile]
  | line l r hl ih =>
    have hfirst : (dropBlankEnd l).dropWhile isBlank = dropBlankEnd (l.dropWhile isBlank) :=
      (dropBlankEnd_dropWhile isBlank l).symm
    rw [trimLines_append hl, List.dropWhile_append, List.dropWhile_append, hnewline, hnewline,
      hfirst]
    by_cases hblank : l.dropWhile isBlank = []
    · simpa [hblank, dropBlankEnd] using ih
    · have hrest : dropBlankEnd (l.dropWhile isBlank) ≠ [] := by
        rw [Ne, dropBlankEnd_eq_nil_iff, ← List.dropWhile_eq_nil_iff, List.dropWhile_idempotent]
        exact hblank
      simp only [List.isEmpty_iff, hblank, hrest, if_false]
      exact trimLines_append (not_mem_dropWhile hl) r

private theorem dropBlankEnd_of_trimLines (h : trimLines cs = []) : dropBlankEnd cs = [] := by
  induction cs using lines_induct with
  | last l hl => rwa [trimLines_of_not_mem hl] at h
  | line l r hl _ =>
    rw [trimLines_append hl] at h
    simp at h

theorem trimLines_dropBlankEnd (cs : List Char) :
    trimLines (dropBlankEnd cs) = dropBlankEnd (trimLines cs) := by
  have hsub {l : List Char} (hl : '\n' ∉ l) : '\n' ∉ dropBlankEnd l :=
    fun hmem => hl ((dropBlankEnd_isPrefix l).subset hmem)
  induction cs using lines_induct with
  | last l hl => rw [trimLines_of_not_mem hl, trimLines_of_not_mem (hsub hl)]
  | line l r hl ih =>
    rw [trimLines_append hl, dropBlankEnd_append_line, dropBlankEnd_append_line, ← ih]
    by_cases hr : dropBlankEnd r = []
    · have hnil : trimLines [] = [] := rfl
      rw [if_pos hr, hr, if_pos hnil, trimLines_of_not_mem (hsub hl)]
    · have hrest : trimLines (dropBlankEnd r) ≠ [] := by
        intro hnil
        have hblank := dropBlankEnd_of_trimLines hnil
        rw [dropBlankEnd_dropBlankEnd] at hblank
        exact hr hblank
      rw [if_neg hr, if_neg hrest, trimLines_append hl]

end LicenseHeader.Text
