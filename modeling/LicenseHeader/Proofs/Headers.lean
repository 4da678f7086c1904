import LicenseHeader.Header.Cache
import LicenseHeader.Proofs.Placement
import LicenseHeader.Style

/-! The lines of headers, and what those of the builtin styles cannot start with. -/
namespace LicenseHeader.Style
open Text
open Header (StartsDirective)

def tokens : Style → List String
  | line lead => [lead]
  | block opening lead closing => [opening, lead, closing]

/-- A token whose first characters mean nothing but a comment: they start no directive, no rule to
keep a file, and no marked text. -/
structure Plain (token : List Char) : Prop where
  two_le : 2 ≤ token.length
  no_newline : '\n' ∉ token
  not_directive : ¬ StartsDirective token
  not_keep : token.head? ≠ some '!'
  not_mark : token.head? ≠ some byteOrderMark

instance (token : List Char) : Decidable (Plain token) :=
  decidable_of_iff (2 ≤ token.length ∧ '\n' ∉ token ∧ ¬ StartsDirective token ∧
      token.head? ≠ some '!' ∧ token.head? ≠ some byteOrderMark)
    ⟨fun h => ⟨h.1, h.2.1, h.2.2.1, h.2.2.2.1, h.2.2.2.2⟩,
      fun h => ⟨h.two_le, h.no_newline, h.not_directive, h.not_keep, h.not_mark⟩⟩

variable {style : Style} {text : String} {l : String}

theorem comment_isPrefix (style : Style) (line : String) :
    (style.comment line).toList <+: style.lead.toList ++ line.toList := by
  rw [comment, trimEnd, String.toList_ofList, String.toList_append]
  exact dropBlankEnd_isPrefix _

/-- Each line of a header is the start of a token with text behind it. -/
theorem exists_token_of_mem_headerLines (h : l ∈ style.headerLines text) :
    ∃ token ∈ style.tokens, ∃ rest, '\n' ∉ rest ∧ l.toList <+: token.toList ++ rest := by
  have hbody (hl : l ∈ (lines text).map style.comment) (hlead : style.lead ∈ style.tokens) :
      ∃ token ∈ style.tokens, ∃ rest, '\n' ∉ rest ∧ l.toList <+: token.toList ++ rest := by
    obtain ⟨line, hline, rfl⟩ := List.mem_map.mp hl
    obtain ⟨cs, hcs, rfl⟩ := List.mem_map.mp hline
    refine ⟨style.lead, hlead, cs, not_mem_of_mem_splitOn hcs, ?_⟩
    simpa using style.comment_isPrefix (String.ofList cs)
  cases style with
  | line lead => exact hbody h (by simp [tokens, Style.lead])
  | block opening lead closing =>
    have hself {token : String} (ht : token ∈ (block opening lead closing).tokens) :
        ∃ t ∈ (block opening lead closing).tokens, ∃ rest, '\n' ∉ rest ∧
          token.toList <+: t.toList ++ rest :=
      ⟨token, ht, [], List.not_mem_nil, List.prefix_append _ _⟩
    rcases List.mem_append.mp h with h | h
    · rcases List.mem_cons.mp h with rfl | h
      · exact hself (by simp [tokens])
      · exact hbody h (by simp [tokens, Style.lead])
    · rw [List.mem_singleton.mp h]
      exact hself (by simp [tokens])

theorem headerLines_ne_nil (style : Style) (text : String) : style.headerLines text ≠ [] := by
  have hlines : lines text ≠ [] := by
    rw [lines, Ne, List.map_eq_nil_iff]
    exact List.splitOn_ne_nil '\n' _
  cases style <;> simp [headerLines, hlines]

theorem splitOn_header (h : ∀ token ∈ style.tokens, '\n' ∉ token.toList) (text : String) :
    (style.header text).toList.splitOn '\n' = (style.headerLines text).map String.toList := by
  rw [header, unlines, String.toList_ofList, List.splitOn_intercalate]
  · intro cs hcs hn
    obtain ⟨l, hl, rfl⟩ := List.mem_map.mp hcs
    obtain ⟨token, ht, rest, hrest, hbehind⟩ := exists_token_of_mem_headerLines hl
    rcases List.mem_append.mp (hbehind.subset hn) with hn | hn
    · exact h token ht hn
    · exact hrest hn
  · simpa using style.headerLines_ne_nil text

/-- Headers with plain tokens start no directive and no marked text, and none of their lines is a
rule to keep a file. -/
theorem header_of_plain (h : ∀ token ∈ style.tokens, Plain token.toList) (text : String) :
    ¬ StartsDirective (style.header text).toList ∧
      (style.header text).toList.head? ≠ some byteOrderMark ∧
      ∀ line ∈ (style.header text).toList.splitOn '\n', line.head? ≠ some '!' := by
  have hline : ∀ line ∈ (style.header text).toList.splitOn '\n',
      ¬ StartsDirective line ∧ line.head? ≠ some byteOrderMark ∧ line.head? ≠ some '!' := by
    intro line hmem
    rw [splitOn_header fun token ht => (h token ht).no_newline] at hmem
    obtain ⟨l, hl, rfl⟩ := List.mem_map.mp hmem
    obtain ⟨token, ht, rest, -, hbehind⟩ := exists_token_of_mem_headerLines hl
    have plain := h token ht
    have hhead {c : Char} (hc : l.toList.head? = some c) : token.toList.head? = some c := by
      obtain ⟨t, hcons⟩ : ∃ t, l.toList = c :: t := by
        cases hl : l.toList with
        | nil => simp [hl] at hc
        | cons d t => exact ⟨t, by simpa [hl] using hc⟩
      have hlen := plain.two_le
      cases htoken : token.toList with
      | nil => simp [htoken] at hlen
      | cons d u =>
        rw [hcons, htoken, List.cons_append, List.cons_prefix_cons] at hbehind
        rw [hbehind.1]
        rfl
    refine ⟨fun hd => plain.not_directive ?_, mt hhead plain.not_mark, mt hhead plain.not_keep⟩
    exact List.prefix_of_prefix_length_le (hd.trans hbehind) (List.prefix_append _ rest)
      plain.two_le
  obtain ⟨first, hfirst, heq⟩ := exists_line_of_text (style.header text).toList
  obtain ⟨hdirective, hmark, -⟩ := hline first hfirst
  refine ⟨fun hd => ?_, fun hhead => ?_, fun line hl => (hline line hl).2.2⟩
  · rcases heq with heq | ⟨r, heq⟩
    · exact hdirective (heq ▸ hd)
    · rw [heq] at hd
      exact hdirective (Header.startsDirective_append_line.mp hd)
  · rcases heq with heq | ⟨r, heq⟩
    · exact hmark (heq ▸ hhead)
    · rw [heq] at hhead
      cases first with
      | nil => exact absurd (Option.some.inj hhead) (by decide)
      | cons c first => exact hmark hhead

theorem plain_builtinTable :
    ∀ e ∈ builtinTable, ∀ token ∈ e.2.tokens, Plain token.toList := by
  decide

end LicenseHeader.Style
