import LicenseHeader.Proofs.ReadBack
import Mathlib.Logic.Relation

/-! License files saved anew, by an editor that leaves a byte order mark, ends lines in its own way
or adds blanks where nobody sees them: the license makes the same headers. -/
namespace LicenseHeader

namespace Text

/-- Each newline with a carriage return before it. -/
def withReturns (cs : List Char) : List Char :=
  cs.flatMap fun c => if c = '\n' then ['\r', '\n'] else [c]

/-- A line with blanks added at its end. -/
def Padded (l l' : String) : Prop :=
  ∃ pad : String, (∀ c ∈ pad.toList, isBlank c = true) ∧ l' = l ++ pad

/-- One way to save a text anew: a byte order mark in front, other ends of lines, blanks at the ends
of lines, or blanks at the end of the text. -/
inductive Resave : String → String → Prop
  | marked (r : String) : Resave r (String.ofList (byteOrderMark :: r.toList))
  | withReturns (r : String) : Resave r (String.ofList (withReturns r.toList))
  | padded {r r' : String} (h : List.Forall₂ Padded (lines r) (lines r')) : Resave r r'
  | extended (r pad : String) (h : ∀ c ∈ pad.toList, isBlank c = true) : Resave r (r ++ pad)

variable {cs pad : List Char}

theorem dropBlankEnd_append_blank (cs : List Char) (h : ∀ c ∈ pad, isBlank c = true) :
    dropBlankEnd (cs ++ pad) = dropBlankEnd cs := by
  rw [dropBlankEnd_append, if_pos (dropBlankEnd_eq_nil_iff.mpr h)]

theorem withReturns_of_not_mem (h : '\n' ∉ cs) : withReturns cs = cs := by
  induction cs with
  | nil => rfl
  | cons c cs ih =>
    rw [List.mem_cons, not_or] at h
    rw [withReturns, List.flatMap_cons, if_neg (Ne.symm h.1), ← withReturns, ih h.2]
    rfl

theorem trimLines_withReturns (cs : List Char) : trimLines (withReturns cs) = trimLines cs := by
  induction cs using lines_induct with
  | last l hl => rw [withReturns_of_not_mem hl]
  | line l r hl ih =>
    have hline : withReturns (l ++ '\n' :: r) = (l ++ ['\r']) ++ '\n' :: withReturns r := by
      have happend : withReturns (l ++ '\n' :: r) = withReturns l ++ withReturns ('\n' :: r) :=
        List.flatMap_append
      rw [happend, withReturns_of_not_mem hl, List.append_assoc]
      rfl
    have hreturn : '\n' ∉ l ++ ['\r'] := by simp [hl]
    rw [hline, trimLines_append hreturn, trimLines_append hl, ih,
      dropBlankEnd_append_blank l (List.all_eq_true.mp rfl)]

theorem sameLines_of_padded {r r' : String} (h : List.Forall₂ Padded (lines r) (lines r')) :
    SameLines r r' := by
  refine h.imp fun l l' hl => ?_
  obtain ⟨pad, hpad, rfl⟩ := hl
  rw [trimEnd, trimEnd, String.toList_append, dropBlankEnd_append_blank _ hpad]

end Text

namespace License
open Text

/-- The two ends of a file are trimmed independently of one another. -/
theorem toList_ofRaw (raw : String) :
    (ofRaw raw).text.toList =
      ((dropBlankEnd raw.toList).dropWhile (· == byteOrderMark)).dropWhile isBlank := by
  rw [ofRaw, trim, String.toList_ofList, String.toList_ofList, dropBlankEnds,
    dropBlankEnd_dropWhile, dropBlankEnd_dropWhile]

/-- Blanks at the ends of its lines have no part in what else is trimmed off a file. -/
theorem trimLines_ofRaw (raw : String) :
    trimLines (ofRaw raw).text.toList =
      ((dropBlankEnd (trimLines raw.toList)).dropWhile (· == byteOrderMark)).dropWhile isBlank := by
  rw [toList_ofRaw, trimLines_dropBlankStart, trimLines_dropWhile (by decide),
    trimLines_dropBlankEnd]

variable {r r' : String}

theorem trimLines_ofRaw_resave (h : Resave r r') :
    trimLines (ofRaw r').text.toList = trimLines (ofRaw r).text.toList := by
  cases h with
  | marked =>
    -- the first mark goes and leaves the text to be trimmed that was there before
    rw [ofRaw, String.toList_ofList, List.dropWhile_cons_of_pos (by decide)]
    rfl
  | withReturns =>
    rw [trimLines_ofRaw, trimLines_ofRaw, String.toList_ofList, trimLines_withReturns]
  | padded h =>
    have hsame := sameLines_iff.mp (sameLines_of_padded h)
    rw [trimLines_ofRaw, trimLines_ofRaw, hsame]
  | extended pad h =>
    rw [toList_ofRaw, toList_ofRaw, String.toList_append, dropBlankEnd_append_blank _ h]

theorem trimLines_ofRaw_resaved (h : Relation.ReflTransGen Resave r r') :
    trimLines (ofRaw r').text.toList = trimLines (ofRaw r).text.toList := by
  induction h with
  | refl => rfl
  | tail _ step ih => rw [trimLines_ofRaw_resave step, ih]

end License

namespace Style
open Text

/-- However often a license file is saved anew, it makes the same header in every style. -/
theorem header_resaved {r r' : String} (h : Relation.ReflTransGen Resave r r') (style : Style) :
    style.header (License.ofRaw r').text = style.header (License.ofRaw r).text := by
  apply header_of_sameLines
  rw [sameLines_iff]
  exact License.trimLines_ofRaw_resaved h

/-- A text with two byte order marks, other ends of lines, a blank line filled and blanks after the
last line. -/
theorem header_resaved_marked :
    let r := "A\n\nB"
    let r' := "\ufeff\ufeffA \t\r\n\u00a0\r\nB\u2003\n "
    Relation.ReflTransGen Resave r r' ∧ ∀ style : Style,
      style.header (License.ofRaw r').text = style.header (License.ofRaw r).text := by
  intro r r'
  have hpadded : Resave r "A \t\n\u00a0\nB\u2003" := by
    have hr : lines r = ["A", "", "B"] := by decide
    have hpad : lines "A \t\n\u00a0\nB\u2003" = ["A \t", "\u00a0", "B\u2003"] := by decide
    refine .padded ?_
    rw [hr, hpad]
    exact .cons ⟨" \t", List.all_eq_true.mp rfl, rfl⟩
      (.cons ⟨"\u00a0", List.all_eq_true.mp rfl, rfl⟩
        (.cons ⟨"\u2003", List.all_eq_true.mp rfl, rfl⟩ .nil))
  have hreturns : Resave "A \t\n\u00a0\nB\u2003" "A \t\r\n\u00a0\r\nB\u2003" := .withReturns _
  have hextended : Resave "A \t\r\n\u00a0\r\nB\u2003" "A \t\r\n\u00a0\r\nB\u2003\n " :=
    .extended _ "\n " (List.all_eq_true.mp rfl)
  have hmarked : Resave "A \t\r\n\u00a0\r\nB\u2003\n " "\ufeffA \t\r\n\u00a0\r\nB\u2003\n " :=
    .marked _
  have hresaved : Relation.ReflTransGen Resave r r' :=
    .tail (.tail (.tail (.tail (.single hpadded) hreturns) hextended) hmarked) (.marked _)
  exact ⟨hresaved, header_resaved hresaved⟩

end Style
end LicenseHeader
