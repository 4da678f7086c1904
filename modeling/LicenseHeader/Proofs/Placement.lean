import LicenseHeader.Proofs.Boundaries
import LicenseHeader.Proofs.Lines
import Mathlib.Logic.Function.Iterate

/-! Where headers go and when they are found again. Texts are lists of characters here: the
directive line at the start, what is below it, and the header between the two. -/
namespace LicenseHeader.Header
open Text

def StartsDirective (cs : List Char) : Prop := ['#', '!'] <+: cs

instance (cs : List Char) : Decidable (StartsDirective cs) :=
  inferInstanceAs (Decidable (['#', '!'] <+: cs))

/-- The directive line at the start of a text, with its newline. -/
def directive (cs : List Char) : List Char :=
  if StartsDirective cs then firstLine cs else []

def body (cs : List Char) : List Char := cs.drop (directive cs).length

def withHeader (h cs : List Char) : List Char := directive cs ++ (h ++ '\n' :: body cs)

theorem startsDirective_append_line {l r : List Char} :
    StartsDirective (l ++ '\n' :: r) ↔ StartsDirective l :=
  ⟨isPrefix_of_append_cons (by decide), fun h => h.trans (List.prefix_append l _)⟩

private theorem firstLine_isPrefix (cs : List Char) : firstLine cs <+: cs := by
  by_cases h : '\n' ∈ cs
  · obtain ⟨l, r, rfl, hl⟩ := List.eq_append_cons_of_mem h
    rw [firstLine_append hl]
    exact ⟨r, by simp⟩
  · exact ⟨[], by rw [firstLine_of_not_mem h, List.append_nil]⟩

theorem directive_append_body (cs : List Char) : directive cs ++ body cs = cs := by
  have h : directive cs <+: cs := by
    unfold directive
    split
    · exact firstLine_isPrefix cs
    · exact List.nil_prefix
  exact List.prefix_iff_eq_append.mp h

theorem directive_of_line {l : List Char} (hd : StartsDirective l) (hl : '\n' ∉ l)
    (r : List Char) : directive (l ++ '\n' :: r) = l ++ ['\n'] := by
  rw [directive, if_pos (startsDirective_append_line.mpr hd), firstLine_append hl]

theorem body_of_line {l : List Char} (hd : StartsDirective l) (hl : '\n' ∉ l) (r : List Char) :
    body (l ++ '\n' :: r) = r := by
  rw [body, directive_of_line hd hl, ← List.append_cancel_left_eq (l ++ ['\n']), List.append_assoc]
  simp

theorem directive_of_not {cs : List Char} (h : ¬ StartsDirective cs) : directive cs = [] :=
  if_neg h

theorem body_of_not {cs : List Char} (h : ¬ StartsDirective cs) : body cs = cs := by
  rw [body, directive_of_not h, List.length_nil, List.drop_zero]

theorem withHeader_of_not {cs : List Char} (h : ¬ StartsDirective cs) (hd : List Char) :
    withHeader hd cs = hd ++ '\n' :: cs := by
  rw [withHeader, directive_of_not h, body_of_not h, List.nil_append]

theorem withHeader_of_line {l : List Char} (hd : StartsDirective l) (hl : '\n' ∉ l)
    (h r : List Char) : withHeader h (l ++ '\n' :: r) = l ++ '\n' :: (h ++ '\n' :: r) := by
  rw [withHeader, directive_of_line hd hl, body_of_line hd hl, List.append_assoc]
  rfl

theorem withHeader_of_lone {cs : List Char} (hd : StartsDirective cs) (hl : '\n' ∉ cs)
    (h : List Char) : withHeader h cs = cs ++ (h ++ ['\n']) := by
  have hdir : directive cs = cs := by rw [directive, if_pos hd, firstLine_of_not_mem hl]
  rw [withHeader, body, hdir, List.drop_length]

theorem found_of_line {cs : List Char} (hd : StartsDirective cs) (hn : '\n' ∈ cs)
    (h : List Char) : h <+: body (withHeader h cs) := by
  obtain ⟨l, r, rfl, hl⟩ := List.eq_append_cons_of_mem hn
  have hdl := startsDirective_append_line.mp hd
  rw [withHeader_of_line hdl hl, body_of_line hdl hl]
  exact List.prefix_append h _

/-- A header at the start of a text is found there if neither starts a directive. -/
theorem found_of_not {cs h : List Char} (hd : ¬ StartsDirective cs) (hh : ¬ StartsDirective h) :
    h <+: body (withHeader h cs) := by
  rw [withHeader_of_not hd, body_of_not (mt startsDirective_append_line.mp hh)]
  exact List.prefix_append h _

/-- If a header starts a copy of itself without its first line, with more text below, that line
starts the text. -/
private theorem line_isPrefix_of_shift {l w cs : List Char} (hl : '\n' ∉ l)
    (h : l ++ '\n' :: w <+: w ++ '\n' :: cs) : l <+: cs := by
  induction w using lines_induct with
  | last w hw =>
    obtain ⟨rfl, hcs⟩ := line_isPrefix_line hl hw h
    exact hcs
  | line k v hk ih =>
    rw [List.append_assoc, List.cons_append] at h
    obtain ⟨rfl, hv⟩ := line_isPrefix_line hl hk h
    exact ih hv

/-- A header that starts a directive itself is not found at the start of a text that starts
none: its own first line now counts as the directive. -/
theorem not_found_of_directive {cs h : List Char} (hd : ¬ StartsDirective cs)
    (hh : StartsDirective h) : ¬ h <+: body (withHeader h cs) := by
  rw [withHeader_of_not hd]
  intro hp
  by_cases hn : '\n' ∈ h
  · obtain ⟨l, w, rfl, hl⟩ := List.eq_append_cons_of_mem hn
    have hdl := startsDirective_append_line.mp hh
    rw [List.append_assoc, List.cons_append, body_of_line hdl hl] at hp
    exact hd (hdl.trans (line_isPrefix_of_shift hl hp))
  · rw [body_of_line hh hn] at hp
    exact hd (hh.trans hp)

/-- Turning a list by one leaves only a constant list as it was. -/
private theorem cons_eq_concat_iff {a : Char} {w : List Char} :
    a :: w = w ++ [a] ↔ ∀ c ∈ w, c = a := by
  induction w with
  | nil => simp
  | cons d w ih =>
    rw [List.cons_append, List.cons.injEq, List.forall_mem_cons]
    constructor
    · rintro ⟨rfl, h⟩
      exact ⟨rfl, ih.mp h⟩
    · rintro ⟨rfl, h⟩
      exact ⟨rfl, ih.mpr h⟩

/-- A header after a directive line without newline is found below it only if it is made of
newlines. -/
theorem found_of_lone_iff {cs h : List Char} (hd : StartsDirective cs) (hl : '\n' ∉ cs)
    (hne : h ≠ []) : h <+: body (withHeader h cs) ↔ ∀ c ∈ h, c = '\n' := by
  have hbody {l : List Char} (hn : '\n' ∉ l) (r : List Char) :
      body (cs ++ (l ++ '\n' :: r)) = r := by
    have hd' : StartsDirective (cs ++ l) := hd.trans (List.prefix_append cs l)
    rw [← List.append_assoc]
    exact body_of_line hd' (by simp [hl, hn]) r
  rw [withHeader_of_lone hd hl]
  by_cases hn : '\n' ∈ h
  · obtain ⟨l, w, rfl, hlw⟩ := List.eq_append_cons_of_mem hn
    rw [List.append_assoc, List.cons_append, hbody hlw]
    constructor
    · intro hp
      -- the header is as long as what it is found in, so its first line is empty
      have hlen := hp.length_le
      simp only [List.length_append, List.length_cons, List.length_nil] at hlen
      have hl0 : l = [] := List.eq_nil_of_length_eq_zero (by omega)
      subst l
      have heq : '\n' :: w = w ++ ['\n'] := hp.eq_of_length (by simp)
      exact List.forall_mem_cons.mpr ⟨rfl, cons_eq_concat_iff.mp heq⟩
    · intro hall
      have hl0 : l = [] := by
        cases l with
        | nil => rfl
        | cons c l => simp [hall c (by simp)] at hlw
      subst l
      have hturn : '\n' :: w = w ++ ['\n'] :=
        cons_eq_concat_iff.mpr fun c hc => hall c (by simp [hc])
      exact ⟨[], by rw [List.append_nil, List.nil_append, hturn]⟩
  · rw [hbody hn]
    constructor
    · intro hp
      exact absurd (List.prefix_nil.mp hp) hne
    · intro hall
      obtain ⟨c, hc⟩ := List.exists_mem_of_ne_nil h hne
      exact absurd (hall c hc ▸ hc) hn

/-- With one header put in after the other, the second is found. -/
theorem found_after_two (h cs : List Char) :
    h <+: body (withHeader h (withHeader h cs)) := by
  by_cases hd : StartsDirective cs
  · apply found_of_line
    · by_cases hn : '\n' ∈ cs
      · obtain ⟨l, r, rfl, hl⟩ := List.eq_append_cons_of_mem hn
        have hdl := startsDirective_append_line.mp hd
        rw [withHeader_of_line hdl hl]
        exact startsDirective_append_line.mpr hdl
      · rw [withHeader_of_lone hd hn]
        exact hd.trans (List.prefix_append cs _)
    · simp [withHeader]
  · by_cases hh : StartsDirective h
    · rw [withHeader_of_not hd]
      exact found_of_line (startsDirective_append_line.mpr hh) (by simp) h
    · have hw : ¬ StartsDirective (withHeader h cs) := by
        rw [withHeader_of_not hd]
        exact mt startsDirective_append_line.mp hh
      exact found_of_not hw hh

def inserted (content header : String) : String :=
  String.ofList (withHeader header.toList content.toList)

theorem splitAtByte?_offset (content : String) :
    splitAtByte? content (offset content) =
      some (String.ofList (directive content.toList), String.ofList (body content.toList)) := by
  have hoffset : offset content = (encode (directive content.toList)).length := by
    unfold offset
    split
    · next rest heq =>
      have hd : StartsDirective content.toList := ⟨rest, heq.symm⟩
      rw [directive, if_pos hd, heq]
    · next hne =>
      have hd : ¬ StartsDirective content.toList := fun ⟨rest, heq⟩ => hne rest heq.symm
      rw [directive_of_not hd]
      rfl
  rw [splitAtByte?_eq_some, hoffset, ← String.ofList_append, directive_append_body,
    String.ofList_toList, bytes, String.toList_ofList]
  exact ⟨rfl, rfl⟩

theorem isAt_offset (content header : String) :
    isAt content (offset content) header = true ↔ header.toList <+: body content.toList := by
  rw [isAt, splitAtByte?_offset, Option.any_some, startsWithBytes_iff, String.toList_ofList]

theorem insertAt?_offset (content header : String) :
    insertAt? content (offset content) header = some (inserted content header) := by
  rw [insertAt?, splitAtByte?_offset, Option.map_some, inserted, withHeader]
  simp [← String.toList_inj]

theorem toList_inserted (content header : String) :
    (inserted content header).toList = withHeader header.toList content.toList :=
  String.toList_ofList

theorem round_of_found {content header : String} (h : header.toList <+: body content.toList) :
    round content header = (true, content) := by
  rw [round, if_pos ((isAt_offset content header).mpr h)]

theorem round_of_missing {content header : String}
    (h : ¬ header.toList <+: body content.toList) :
    round content header = (false, inserted content header) := by
  rw [round, if_neg (mt (isAt_offset content header).mp h), insertAt?_offset, Option.getD_some]

theorem round_fst_iff {content header : String} :
    (round content header).1 = true ↔ header.toList <+: body content.toList := by
  by_cases h : header.toList <+: body content.toList
  · simp [round_of_found h, h]
  · simp [round_of_missing h, h]

private theorem found_third (content header : String) :
    header.toList <+: body (round (round content header).2 header).2.toList := by
  by_cases h1 : header.toList <+: body content.toList
  · rwa [round_of_found h1, round_of_found h1]
  · rw [round_of_missing h1]
    by_cases h2 : header.toList <+: body (inserted content header).toList
    · rwa [round_of_found h2]
    · rw [round_of_missing h2, toList_inserted, toList_inserted]
      exact found_after_two header.toList content.toList

/-- Checking and inserting settles: from the third round on the header is found, and nothing
changes. After a first round that inserts, the second finds the header exactly if the content
starts with a whole directive line, or neither starts a directive, or the header is made of
newlines and comes after a directive line without one. -/
theorem round_converges (content header : String) :
    let next := fun c => (round c header).2
    (∀ n, 2 ≤ n → round (next^[n] content) header = (true, next^[2] content)) ∧
    ((round content header).1 = false →
      insertAt? content (offset content) header = some (next content) ∧
      ((round (next content) header).1 = true ↔
        StartsDirective content.toList ∧ '\n' ∈ content.toList ∨
        ¬ StartsDirective content.toList ∧ ¬ StartsDirective header.toList ∨
        StartsDirective content.toList ∧ '\n' ∉ content.toList ∧
          ∀ c ∈ header.toList, c = '\n')) := by
  intro next
  refine ⟨fun n hn => ?_, fun hmiss => ?_⟩
  · have hthird := round_of_found (found_third content header)
    have hiter : next^[n] content = next (next content) := by
      obtain ⟨k, rfl⟩ := Nat.exists_eq_add_of_le' hn
      induction k with
      | zero => rfl
      | succ k ih =>
        rw [Nat.add_right_comm, Function.iterate_succ_apply', ih (Nat.le_add_left 2 k)]
        exact (Prod.ext_iff.mp hthird).2
    rw [hiter]
    exact hthird
  · have hnot : ¬ header.toList <+: body content.toList := by
      rw [← round_fst_iff, hmiss]
      exact Bool.false_ne_true
    have hnext : next content = inserted content header := by
      rw [show next content = (round content header).2 from rfl, round_of_missing hnot]
    have hne : header.toList ≠ [] := by
      intro h0
      rw [h0] at hnot
      exact hnot List.nil_prefix
    refine ⟨by rw [hnext, insertAt?_offset], ?_⟩
    rw [hnext, round_fst_iff, toList_inserted]
    by_cases hd : StartsDirective content.toList
    · by_cases hn : '\n' ∈ content.toList
      · simp [hd, hn, found_of_line]
      · simp [hd, hn, found_of_lone_iff hd hn hne]
    · by_cases hh : StartsDirective header.toList
      · simp [hd, hh, not_found_of_directive]
      · simp [hd, hh, found_of_not]

/-- A header that starts a directive itself is put in twice. -/
theorem round_converges_twice :
    (round "x" "#!h").1 = false ∧ (round (round "x" "#!h").2 "#!h").1 = false ∧
      (fun c => (round c "#!h").2)^[5] "x" = "#!h\n#!h\nx" := by
  obtain ⟨hstay, hsecond⟩ := round_converges "x" "#!h"
  have hmiss : (round "x" "#!h").1 = false := by decide +kernel
  refine ⟨hmiss, ?_, ?_⟩
  · rw [← Bool.not_eq_true, (hsecond hmiss).2]
    decide
  · rw [Function.iterate_succ_apply', hstay 4 (by decide)]
    decide +kernel

end LicenseHeader.Header
