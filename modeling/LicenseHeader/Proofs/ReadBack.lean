import LicenseHeader.Proofs.Relicense
import LicenseHeader.Proofs.Trimming

/-! Headers read back: what a header shows of its text, so that texts with one header are told
apart by nothing but blanks at the ends of their lines. -/
namespace LicenseHeader.Text

theorem closed_of_ne_nil {ls : List (List Char)} (hne : ls ≠ []) (last : List Char) :
    closed ls last = ['\n'].intercalate ls ++ '\n' :: last := by
  induction ls with
  | nil => exact absurd rfl hne
  | cons l ls ih =>
    cases ls with
    | nil => simp
    | cons m ms =>
      rw [closed_cons, ih (List.cons_ne_nil m ms), List.intercalate_cons_cons]
      simp

theorem sameLines_iff {a b : String} :
    SameLines a b ↔ trimLines a.toList = trimLines b.toList := by
  rw [trimLines_inj, ← List.forall₂_eq_eq_eq, List.forall₂_map_left_iff,
    List.forall₂_map_right_iff, SameLines, lines, lines, List.forall₂_map_left_iff,
    List.forall₂_map_right_iff]
  simp only [trimEnd, String.ofList_inj, String.toList_ofList]

end LicenseHeader.Text

namespace LicenseHeader.Style
open Text

/-- The part of a header in which its text stands: all of it, or what is between the opening and the
closing line of a block. -/
def body (style : Style) (header : List Char) : List Char :=
  match style with
  | line _ => header
  | block opening _ closing =>
    (header.drop (opening.toList.length + 1)).rdrop (closing.toList.length + 1)

/-- What a header shows behind the lead of each line of its body. -/
def readBack (style : Style) (header : String) : String :=
  Text.unlines (((style.body header.toList).splitOn '\n').map fun l =>
    String.ofList (l.drop style.lead.toList.length))

variable {style : Style}

theorem commentLines_ne_nil (style : Style) (text : String) : style.commentLines text ≠ [] := by
  simp [commentLines, lines]

theorem body_header (style : Style) (text : String) :
    style.body (style.header text).toList = ['\n'].intercalate (style.commentLines text) := by
  cases style with
  | line lead =>
    rw [body, header, unlines, String.toList_ofList, headerLines, List.map_map]
    rfl
  | block opening lead closing =>
    have hlines := (block opening lead closing).commentLines_ne_nil text
    have hopening : (opening.toList ++ ['\n']).length = opening.toList.length + 1 := by simp
    rw [body, toList_header_block, List.append_cons, List.drop_left' hopening,
      closed_of_ne_nil hlines]
    simp [List.rdrop]

/-- Behind the lead, a comment line has its line of text. If that is blank, then trimming may have
cut the lead too, and there is nothing. -/
theorem drop_comment (style : Style) (l : String) :
    (style.comment l).toList.drop style.lead.toList.length = dropBlankEnd l.toList := by
  rw [comment, trimEnd, String.toList_ofList, String.toList_append, dropBlankEnd_append]
  split
  · next hl =>
    rw [hl]
    exact List.drop_eq_nil_of_le (dropBlankEnd_isPrefix _).length_le
  · exact List.drop_left

theorem readBack_header (hlead : '\n' ∉ style.lead.toList) (text : String) :
    style.readBack (style.header text) = String.ofList (trimLines text.toList) := by
  have hsplit : (style.body (style.header text).toList).splitOn '\n' = style.commentLines text := by
    rw [body_header]
    exact List.splitOn_intercalate '\n' (fun _ => no_newline_of_mem_commentLines hlead)
      (style.commentLines_ne_nil text)
  rw [readBack, hsplit, unlines, trimLines, commentLines, lines]
  simp only [List.map_map, Function.comp_def, String.toList_ofList, drop_comment]

/-- A header shows nothing of its text but the comment lines. -/
theorem header_of_sameLines (style : Style) {a b : String} (h : SameLines a b) :
    style.header a = style.header b := by
  have hbody : (lines a).map style.comment = (lines b).map style.comment := by
    rw [← List.forall₂_eq_eq_eq, List.forall₂_map_left_iff, List.forall₂_map_right_iff]
    exact h.imp fun _ _ => comment_inj.mpr
  cases style with
  | line lead => rw [header, header, headerLines, headerLines, hbody]
  | block opening lead closing => rw [header, header, headerLines, headerLines, hbody]

/-- Two texts have the same header in a style exactly if they have the same lines up to blanks at
the ends: so much of a text can be read back from its header. -/
theorem header_inj (hlead : '\n' ∉ style.lead.toList) (a b : String) :
    (style.header a = style.header b ↔ SameLines a b) ∧
      style.readBack (style.header a) = String.ofList (trimLines a.toList) := by
  refine ⟨⟨fun h => ?_, style.header_of_sameLines⟩, readBack_header hlead a⟩
  have hread := congrArg style.readBack h
  rw [readBack_header hlead, readBack_header hlead, String.ofList_inj] at hread
  exact sameLines_iff.mpr hread

/-- The lead may be blank throughout and the opening may be several lines. -/
theorem header_inj_blankLead :
    let style := block "<\n<" "  " ">"
    style.header "a \n\n b" = style.header "a\n \t\n b\u2003" ∧
      style.header "a" ≠ style.header "a\n" ∧
      style.readBack (style.header "a \n\n b") = "a\n\n b" := by
  intro style
  have hlead : '\n' ∉ style.lead.toList := by decide
  obtain ⟨hsame, hread⟩ := header_inj hlead "a \n\n b" "a\n \t\n b\u2003"
  obtain ⟨hother, -⟩ := header_inj hlead "a" "a\n"
  refine ⟨hsame.mpr (by decide), ?_, ?_⟩
  · rw [Ne, hother]
    decide
  · rw [hread]
    decide

end LicenseHeader.Style
