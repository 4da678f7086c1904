import LicenseHeader.Proofs.Relicense
import Mathlib.Data.List.Infix

/-! Where headers end as comments: how often the closing delimiter of a block style stands in a
header, and how the lines of a header in a line style begin. -/
namespace LicenseHeader.Text

def occurrences (token cs : List Char) : Nat :=
  cs.tails.countP fun rest => token <+: rest

section
variable {token a b cs : List Char} {c : Char}

theorem occurrences_nil (hne : token ≠ []) : occurrences token [] = 0 := by
  simp [occurrences, hne]

theorem occurrences_cons (token : List Char) (c : Char) (cs : List Char) :
    occurrences token (c :: cs) =
      occurrences token cs + if token <+: c :: cs then 1 else 0 := by
  rw [occurrences, List.tails_cons, List.countP_cons]
  simp [occurrences]

theorem occurrences_eq_zero_iff : occurrences token cs = 0 ↔ ¬ token <:+: cs := by
  simp only [occurrences, List.countP_eq_zero, List.mem_tails, decide_eq_true_eq,
    List.infix_iff_prefix_suffix, not_exists, not_and]
  exact forall_congr' fun rest => imp_not_comm

/-- No occurrence of a token goes across a character that it does not have. -/
theorem occurrences_append_cons (hne : token ≠ []) (hc : c ∉ token) (a b : List Char) :
    occurrences token (a ++ c :: b) = occurrences token a + occurrences token b := by
  induction a with
  | nil =>
    have hstart : ¬ token <+: c :: b := by
      intro h
      have hnil := isPrefix_of_append_cons (b := []) hc h
      exact hne (List.prefix_nil.mp hnil)
    rw [List.nil_append, occurrences_cons, if_neg hstart, occurrences_nil hne, Nat.add_comm]
  | cons d a ih =>
    have hstart : token <+: d :: (a ++ c :: b) ↔ token <+: d :: a :=
      ⟨isPrefix_of_append_cons (b := d :: a) hc,
        fun h => h.trans (List.prefix_append (d :: a) (c :: b))⟩
    rw [List.cons_append, occurrences_cons, occurrences_cons, ih, Nat.add_right_comm]
    simp only [hstart]

theorem occurrences_append_of_disjoint (hne : token ≠ []) (hb : ∀ c ∈ b, c ∉ token)
    (a : List Char) : occurrences token (a ++ b) = occurrences token a := by
  induction b generalizing a with
  | nil => rw [List.append_nil]
  | cons c b ih =>
    rw [List.forall_mem_cons] at hb
    have hb0 : occurrences token b = 0 := by simpa [occurrences_nil hne] using ih hb.2 []
    rw [occurrences_append_cons hne hb.1, hb0, Nat.add_zero]

theorem occurrences_of_disjoint_append (hne : token ≠ []) (ha : ∀ c ∈ a, c ∉ token)
    (b : List Char) : occurrences token (a ++ b) = occurrences token b := by
  induction a with
  | nil => rfl
  | cons c a ih =>
    rw [List.forall_mem_cons] at ha
    have hcut := occurrences_append_cons hne ha.1 [] (a ++ b)
    rw [List.nil_append, occurrences_nil hne, Nat.zero_add] at hcut
    rw [List.cons_append, hcut, ih ha.2]

end

/-- A token without blanks, which trimming cannot cut, and without byte order mark. -/
structure Solid (token : List Char) : Prop where
  ne_nil : token ≠ []
  no_blank : ∀ c ∈ token, isBlank c = false
  no_mark : byteOrderMark ∉ token

instance (token : List Char) : Decidable (Solid token) :=
  decidable_of_iff (token ≠ [] ∧ token.all (!isBlank ·) ∧ byteOrderMark ∉ token) (by
    simp only [List.all_eq_true, Bool.not_eq_true']
    exact ⟨fun h => ⟨h.1, h.2.1, h.2.2⟩, fun h => ⟨h.ne_nil, h.no_blank, h.no_mark⟩⟩)

section
variable {token : List Char}

theorem Solid.not_mem_of_blank (h : Solid token) {c : Char} (hc : isBlank c = true) :
    c ∉ token := by
  intro hmem
  rw [h.no_blank c hmem] at hc
  cases hc

theorem occurrences_dropBlankEnd (h : Solid token) (cs : List Char) :
    occurrences token (dropBlankEnd cs) = occurrences token cs := by
  have hcut : dropBlankEnd cs ++ cs.rtakeWhile isBlank = cs :=
    List.rdropWhile_append_rtakeWhile
  have hblank : ∀ c ∈ cs.rtakeWhile isBlank, c ∉ token :=
    fun c hc => h.not_mem_of_blank (List.mem_rtakeWhile_imp hc)
  conv => rhs; rw [← hcut]
  exact (occurrences_append_of_disjoint h.ne_nil hblank _).symm

theorem occurrences_dropWhile (hne : token ≠ []) {p : Char → Bool}
    (hp : ∀ c, p c = true → c ∉ token) (cs : List Char) :
    occurrences token (cs.dropWhile p) = occurrences token cs := by
  have hfront : ∀ c ∈ cs.takeWhile p, c ∉ token :=
    fun c hc => hp c (List.mem_takeWhile_imp hc)
  conv => rhs; rw [← List.takeWhile_append_dropWhile (p := p) (l := cs)]
  exact (occurrences_of_disjoint_append hne hfront _).symm

/-- A license text has a token as often as the file it was read from. -/
theorem occurrences_ofRaw (h : Solid token) (raw : String) :
    occurrences token (License.ofRaw raw).text.toList = occurrences token raw.toList := by
  have hmark (c : Char) (hc : (c == byteOrderMark) = true) : c ∉ token :=
    eq_of_beq hc ▸ h.no_mark
  have hblank (c : Char) (hc : isBlank c = true) : c ∉ token := h.not_mem_of_blank hc
  rw [License.ofRaw, trim, String.toList_ofList, String.toList_ofList, dropBlankEnds,
    occurrences_dropBlankEnd h, occurrences_dropWhile h.ne_nil hblank,
    occurrences_dropWhile h.ne_nil hmark]

theorem Solid.no_newline (h : Solid token) : '\n' ∉ token := h.not_mem_of_blank (by decide)

theorem suffix_closed (ls : List (List Char)) (last : List Char) : last <:+ closed ls last := by
  induction ls with
  | nil => exact List.suffix_rfl
  | cons l ls ih => exact ih.trans ((List.suffix_cons '\n' _).trans (List.suffix_append l _))

/-- If the lines of a text become others with a token as often, then so does the text, whatever
stands on a line after them. -/
theorem occurrences_closed_map (h : Solid token) {f : List Char → List Char}
    (hf : ∀ l, occurrences token (f l) = occurrences token l) (cs last : List Char) :
    occurrences token (closed ((cs.splitOn '\n').map f) last) =
      occurrences token cs + occurrences token last := by
  induction cs using lines_induct with
  | last l hl =>
    rw [List.splitOn_eq_singleton hl, List.map_singleton, closed_cons, closed_nil,
      occurrences_append_cons h.ne_nil h.no_newline, hf]
  | line l r hl ih =>
    rw [List.splitOn_append_cons_self_of_not_mem hl, List.map_cons, closed_cons,
      occurrences_append_cons h.ne_nil h.no_newline, occurrences_append_cons h.ne_nil h.no_newline,
      hf, ih, Nat.add_assoc]

end
end LicenseHeader.Text

namespace LicenseHeader.Style
open Text

/-- The delimiter that a closing line brings: the line without the blanks before it. -/
def delimiter (closing : String) : List Char := closing.toList.dropWhile isBlank

/-- Tokens of a block style that have the delimiter nowhere but where the block closes. The lead
ends with a blank, so that it makes no delimiter with the text behind it. -/
structure Encloses (opening lead closing : String) : Prop where
  solid : Solid (delimiter closing)
  opening_free : occurrences (delimiter closing) opening.toList = 0
  lead_free : occurrences (delimiter closing) lead.toList = 0
  lead_blank : lead.toList.getLast?.any isBlank
  closing_once : occurrences (delimiter closing) closing.toList = 1

instance (opening lead closing : String) : Decidable (Encloses opening lead closing) :=
  decidable_of_iff (Solid (delimiter closing) ∧
      occurrences (delimiter closing) opening.toList = 0 ∧
      occurrences (delimiter closing) lead.toList = 0 ∧ lead.toList.getLast?.any isBlank ∧
      occurrences (delimiter closing) closing.toList = 1)
    ⟨fun h => ⟨h.1, h.2.1, h.2.2.1, h.2.2.2.1, h.2.2.2.2⟩,
      fun h => ⟨h.solid, h.opening_free, h.lead_free, h.lead_blank, h.closing_once⟩⟩

/-- The two ways in which headers of a style are comments throughout: each line starts one, or the
first line starts one that goes on up to the last. -/
def Delimited : Style → Prop
  | line lead => trimEnd lead ++ " " = lead
  | block opening lead closing => Encloses opening lead closing ∧
      ((opening = "/*" ∧ delimiter closing = "*/".toList) ∨
        (opening = "<!--" ∧ delimiter closing = "-->".toList))

instance (style : Style) : Decidable style.Delimited :=
  match style with
  | line _ => inferInstanceAs (Decidable (_ = _))
  | block _ _ _ => inferInstanceAs (Decidable (_ ∧ _))

theorem delimited_builtinTable : ∀ e ∈ builtinTable, e.2.Delimited := by
  have hfamilies : ∀ f ∈ families, f.1.Delimited := by decide
  intro e he
  obtain ⟨f, hf, he⟩ := List.mem_flatMap.mp he
  obtain ⟨extension, -, rfl⟩ := List.mem_map.mp he
  exact hfamilies f hf

section
variable {opening lead closing : String}

theorem occurrences_comment (h : Encloses opening lead closing) (l : String) :
    occurrences (delimiter closing) ((block opening lead closing).comment l).toList =
      occurrences (delimiter closing) l.toList := by
  obtain ⟨blank, hlast, hblank⟩ := (Option.any_eq_true _ _).mp h.lead_blank
  obtain ⟨stem, hlead⟩ := List.getLast?_eq_some_iff.mp hlast
  have hnot : blank ∉ delimiter closing := h.solid.not_mem_of_blank hblank
  -- the blank that ends the lead keeps it apart from the text, and trimming takes blanks only
  have hstem : occurrences (delimiter closing) stem = 0 := by
    have hfree := h.lead_free
    rw [hlead, occurrences_append_cons h.solid.ne_nil hnot] at hfree
    omega
  rw [comment, trimEnd, String.toList_ofList, occurrences_dropBlankEnd h.solid,
    String.toList_append, Style.lead, hlead, List.append_assoc, List.singleton_append,
    occurrences_append_cons h.solid.ne_nil hnot, hstem, Nat.zero_add]

/-- A header has the delimiter as often as its text, and once more where it closes. -/
theorem occurrences_header (h : Encloses opening lead closing) (text : String) :
    occurrences (delimiter closing) ((block opening lead closing).header text).toList =
      occurrences (delimiter closing) text.toList + 1 := by
  have hline (cs : List Char) : occurrences (delimiter closing)
      ((block opening lead closing).comment (String.ofList cs)).toList =
        occurrences (delimiter closing) cs := by
    rw [occurrences_comment h, String.toList_ofList]
  have hbody := occurrences_closed_map h.solid hline text.toList closing.toList
  have hlines : (block opening lead closing).commentLines text = (text.toList.splitOn '\n').map
      fun cs => ((block opening lead closing).comment (String.ofList cs)).toList := by
    rw [commentLines, lines, List.map_map]
    rfl
  rw [toList_header_block, hlines, occurrences_append_cons h.solid.ne_nil h.solid.no_newline,
    h.opening_free, hbody, h.closing_once, Nat.zero_add]

/-- The lead of a line style without the blanks at its end starts each line of a header. -/
theorem trimEnd_isPrefix_of_mem_lines (hlead : '\n' ∉ lead.toList) {text l : String}
    (hl : l ∈ lines ((line lead).header text)) : (trimEnd lead).toList <+: l.toList := by
  have htokens : ∀ token ∈ (line lead).tokens, '\n' ∉ token.toList := by
    simpa [tokens] using hlead
  rw [lines, splitOn_header htokens, List.map_map] at hl
  obtain ⟨m, hm, rfl⟩ := List.mem_map.mp hl
  obtain ⟨cs, -, rfl⟩ := List.mem_map.mp hm
  rw [Function.comp_apply, String.ofList_toList, comment, trimEnd, trimEnd, String.toList_ofList,
    String.toList_ofList, String.toList_append, Style.lead, dropBlankEnd_append]
  split
  · exact List.prefix_rfl
  · exact (dropBlankEnd_isPrefix _).trans (List.prefix_append _ _)

/-- The header of a license is one comment from end to end, except in a block style whose closing
delimiter the license itself has: the delimiter then stands as often before the end of the header
as in the license file. -/
theorem header_delimited {extension : String} {style : Style}
    (hbuiltin : builtin? extension = some style) (raw : String) :
    let header := style.header (License.ofRaw raw).text
    match style with
    | line lead => trimEnd lead ++ " " = lead ∧
        ∀ l ∈ lines header, (trimEnd lead).toList <+: l.toList
    | block opening _ closing =>
      ((opening = "/*" ∧ delimiter closing = "*/".toList) ∨
        (opening = "<!--" ∧ delimiter closing = "-->".toList)) ∧
      opening.toList <+: header.toList ∧ delimiter closing <:+ header.toList ∧
      occurrences (delimiter closing) header.toList =
        occurrences (delimiter closing) raw.toList + 1 ∧
      (occurrences (delimiter closing) header.toList = 1 ↔
        ¬ delimiter closing <:+: raw.toList) := by
  intro header
  have hmem : (extension, style) ∈ builtinTable := mem_of_lookup_eq_some hbuiltin
  have hdelimited : style.Delimited := delimited_builtinTable _ hmem
  cases style with
  | line lead =>
    have hlead : '\n' ∉ lead.toList :=
      (plain_builtinTable _ hmem lead List.mem_cons_self).no_newline
    exact ⟨hdelimited, fun l hl => trimEnd_isPrefix_of_mem_lines hlead hl⟩
  | block opening lead closing =>
    obtain ⟨hencloses, htokens⟩ := hdelimited
    have hheader : header.toList = opening.toList ++ '\n' ::
        closed ((block opening lead closing).commentLines _) closing.toList :=
      toList_header_block opening lead closing _
    have hcount : occurrences (delimiter closing) header.toList =
        occurrences (delimiter closing) raw.toList + 1 := by
      rw [occurrences_header hencloses, occurrences_ofRaw hencloses.solid]
    clear_value header
    refine ⟨htokens, ?_, ?_, hcount, ?_⟩
    · rw [hheader]
      exact List.prefix_append _ _
    · rw [hheader]
      exact (List.dropWhile_suffix _).trans ((suffix_closed _ _).trans
        ((List.suffix_cons '\n' _).trans (List.suffix_append _ _)))
    · rw [hcount, ← occurrences_eq_zero_iff]
      omega

/-- Text that looks like the end of a block, but for a blank or a newline, does not end it. -/
theorem header_delimited_spaced :
    occurrences "*/".toList ((block "/*" " * " " */").header
      (License.ofRaw "\ufeff/*\na * / b *\n/\n").text).toList = 1 ∧
    ∀ l ∈ lines ((line "# ").header (License.ofRaw "a\n\n \n*/").text),
      "#".toList <+: l.toList := by
  have hrs : builtin? "rs" = some (block "/*" " * " " */") := by decide
  have hpy : builtin? "py" = some (line "# ") := by decide
  obtain ⟨-, -, -, -, honce⟩ := header_delimited hrs "\ufeff/*\na * / b *\n/\n"
  exact ⟨honce.mpr (by decide +kernel), (header_delimited hpy "a\n\n \n*/").2⟩

/-- A license that has the delimiter closes its own header early, in both families of block
styles. -/
theorem header_delimited_misses :
    (builtin? "rs" = some (block "/*" " * " " */") ∧
      (block "/*" " * " " */").header (License.ofRaw "a */ b").text = "/*\n * a */ b\n */" ∧
      occurrences "*/".toList "/*\n * a */ b\n */".toList = 2) ∧
    builtin? "html" = some (block "<!--" "     " "-->") ∧
      (block "<!--" "     " "-->").header (License.ofRaw "a --> b").text =
        "<!--\n     a --> b\n-->" ∧
      occurrences "-->".toList "<!--\n     a --> b\n-->".toList = 2 := by
  decide +kernel

end
end LicenseHeader.Style
