import LicenseHeader.Proofs.Headers
import LicenseHeader.Proofs.Insertion
import LicenseHeader.Proofs.Lookup
import Mathlib.Data.List.Forall2

/-! A file with the header of one license, looked at for the header of another. -/
namespace LicenseHeader.Text

/-- Whether two texts have the same lines, up to blanks at the ends of lines. -/
def SameLines (a b : String) : Prop :=
  List.Forall₂ (fun l m => trimEnd l = trimEnd m) (lines a) (lines b)

instance (a b : String) : Decidable (SameLines a b) :=
  inferInstanceAs (Decidable (List.Forall₂ _ _ _))

end LicenseHeader.Text

namespace LicenseHeader.Style
open Text

/-- Whether no comment line of a style can start with its closing line, because the lead does
not and is long enough to tell. -/
def ClosesApart : Style → Prop
  | line _ => True
  | block _ lead closing =>
    closing.toList.length ≤ lead.toList.length ∧ ¬ closing.toList <+: lead.toList

instance (style : Style) : Decidable style.ClosesApart :=
  match style with
  | line _ => inferInstanceAs (Decidable True)
  | block _ _ _ => inferInstanceAs (Decidable (_ ∧ _))

theorem closesApart_builtinTable : ∀ e ∈ builtinTable, e.2.ClosesApart := by decide

section
variable {style : Style} {opening lead closing a b l m : String} {rest : List Char}

theorem comment_inj : style.comment l = style.comment m ↔ trimEnd l = trimEnd m := by
  simp only [comment, trimEnd, String.ofList_inj, String.toList_append, dropBlankEnd_append_inj]

def commentLines (style : Style) (text : String) : List (List Char) :=
  (lines text).map fun l => (style.comment l).toList

/-- Comment lines show the lines of the text they come from, up to blanks at the ends. -/
theorem commentLines_inj : style.commentLines a = style.commentLines b ↔ SameLines a b := by
  rw [← List.forall₂_eq_eq_eq, commentLines, commentLines, List.forall₂_map_left_iff,
    List.forall₂_map_right_iff, SameLines]
  simp only [String.toList_inj, comment_inj]

theorem no_newline_of_mem_commentLines (hlead : '\n' ∉ style.lead.toList) {text : String}
    {l : List Char} (hl : l ∈ style.commentLines text) : '\n' ∉ l := by
  obtain ⟨line, hline, rfl⟩ := List.mem_map.mp hl
  obtain ⟨cs, hcs, rfl⟩ := List.mem_map.mp hline
  intro hn
  rcases List.mem_append.mp ((comment_isPrefix _ _).subset hn) with hn | hn
  · exact hlead hn
  · exact not_mem_of_mem_splitOn hcs (by simpa using hn)

theorem not_isPrefix_comment (apart : (block opening lead closing).ClosesApart) (l : String) :
    ¬ closing.toList <+: ((block opening lead closing).comment l).toList := by
  intro h
  have hbehind := h.trans (comment_isPrefix (block opening lead closing) l)
  exact apart.2 (List.prefix_of_prefix_length_le hbehind (List.prefix_append _ _) apart.1)

theorem toList_header_block (opening lead closing text : String) :
    ((block opening lead closing).header text).toList = opening.toList ++ '\n' ::
      closed ((block opening lead closing).commentLines text) closing.toList := by
  rw [header, unlines, String.toList_ofList, headerLines, List.map_append, List.map_singleton,
    intercalate_append_last, List.map_cons, closed_cons, List.map_map]
  rfl

/-- The header of one license starts what begins with the header of another one in the same block
style only if the two have the same lines. -/
theorem header_isPrefix_iff (hblock : style.isBlock = true) (apart : style.ClosesApart)
    (htokens : ∀ token ∈ style.tokens, '\n' ∉ token.toList) :
    (style.header b).toList <+: (style.header a).toList ++ rest ↔ SameLines a b := by
  cases style with
  | line lead => cases hblock
  | block opening lead closing =>
    have hclosing : '\n' ∉ closing.toList := htokens closing (by simp [tokens])
    have hlines (text : String) : ∀ l ∈ (block opening lead closing).commentLines text,
        '\n' ∉ l ∧ ¬ closing.toList <+: l := by
      intro l hl
      have hlead : '\n' ∉ (block opening lead closing).lead.toList :=
        htokens lead (by simp [tokens])
      refine ⟨no_newline_of_mem_commentLines hlead hl, ?_⟩
      obtain ⟨line, -, rfl⟩ := List.mem_map.mp hl
      exact not_isPrefix_comment apart line
    rw [toList_header_block, toList_header_block, List.append_assoc, List.prefix_append_right_inj,
      List.cons_append, List.cons_prefix_cons, closed_isPrefix_iff hclosing (hlines b) (hlines a),
      eq_comm (a := commentLines _ b), commentLines_inj]
    exact and_iff_right rfl

end
end LicenseHeader.Style

namespace LicenseHeader.Header
open Text

/-- A change of license does not go unnoticed in the builtin block styles: where the header of one
license was put in, or stands whatever follows it, the header of another one is found only if the
two licenses have the same lines, up to blanks at the ends of lines. -/
theorem isAt_relicensed {extension : String} {style : Style}
    (hbuiltin : Style.builtin? extension = some style) (hblock : style.isBlock = true)
    (a b content : String) (o : Nat) :
    let header := fun raw => style.header (License.ofRaw raw).text
    let same := SameLines (License.ofRaw a).text (License.ofRaw b).text
    ((splitAtByte? content o).isSome → ∃ new, insertAt? content o (header a) = some new ∧
      (isAt new o (header b) = true ↔ same)) ∧
    (isAt content o (header a) = true → (isAt content o (header b) = true ↔ same)) := by
  intro header same
  have hmem : (extension, style) ∈ Style.builtinTable := mem_of_lookup_eq_some hbuiltin
  have htokens : ∀ token ∈ style.tokens, '\n' ∉ token.toList :=
    fun token ht => (Style.plain_builtinTable _ hmem token ht).no_newline
  have hfound {content : String} (h : isAt content o (header a) = true) :
      isAt content o (header b) = true ↔ same := by
    obtain ⟨before, after, rfl, hlen⟩ := isAt_iff.mp h
    have hcut : splitAtByte? (before ++ header a ++ after) o =
        some (before, header a ++ after) :=
      splitAtByte?_eq_some.mpr ⟨by rw [String.append_assoc], hlen⟩
    rw [isAt, hcut, Option.any_some, startsWithBytes_iff, String.toList_append]
    exact Style.header_isPrefix_iff hblock (Style.closesApart_builtinTable _ hmem) htokens
  refine ⟨fun hvalid => ?_, hfound⟩
  obtain ⟨cut, hcut⟩ := Option.isSome_iff_exists.mp hvalid
  have hinsert : insertAt? content o (header a) =
      some (cut.1 ++ header a ++ "\n" ++ cut.2) := by rw [insertAt?, hcut, Option.map_some]
  exact ⟨_, hinsert, hfound (isAt_of_insertAt? hinsert)⟩

theorem isAt_relicensed_shebang :
    (∃ new, insertAt? "#!x\ny" 4
        ((Style.block "/*" " * " " */").header (License.ofRaw "\ufeffL \n\nM\n").text) = some new ∧
      isAt new 4 ((Style.block "/*" " * " " */").header (License.ofRaw "L\n\t\nM").text) = true) ∧
    isAt "/*\n * L\n */ x" 0
      ((Style.block "/*" " * " " */").header (License.ofRaw "L\n/").text) = false := by
  have hbuiltin : Style.builtin? "rs" = some (.block "/*" " * " " */") := by decide
  obtain ⟨hinsert, -⟩ := isAt_relicensed hbuiltin rfl "\ufeffL \n\nM\n" "L\n\t\nM" "#!x\ny" 4
  obtain ⟨-, hstands⟩ := isAt_relicensed hbuiltin rfl "L" "L\n/" "/*\n * L\n */ x" 0
  obtain ⟨new, hnew, hiff⟩ := hinsert (by decide +kernel)
  refine ⟨⟨new, hnew, hiff.mpr (by decide +kernel)⟩, ?_⟩
  rw [← Bool.not_eq_true, hstands (by decide +kernel)]
  decide +kernel

end LicenseHeader.Header
