import LicenseHeader.Proofs.Insertion
import LicenseHeader.Proofs.Placement

/-! The offset of a header is a place where it can be put in: at the start of a text, or just below
its directive line. -/
namespace LicenseHeader.Text

/-- Whether a text is the first line of another one, with its newline if it has one. -/
structure IsFirstLine (line content : String) : Prop where
  starts : bytes line <+: bytes content
  ended : 0x0A ∈ bytes content → (bytes line).getLast? = some 0x0A
  unbroken : 0x0A ∉ (bytes line).dropLast
  whole : 0x0A ∉ bytes content → line = content

theorem isFirstLine_firstLine (content : String) :
    IsFirstLine (String.ofList (firstLine content.toList)) content := by
  by_cases hn : '\n' ∈ content.toList
  · obtain ⟨l, r, heq, hl⟩ := List.eq_append_cons_of_mem hn
    have hline : bytes (String.ofList (firstLine content.toList)) = encode l ++ [0x0A] := by
      rw [heq, firstLine_append hl, bytes, String.toList_ofList, encode_append]
      rfl
    have hcontent : bytes content = encode l ++ [0x0A] ++ encode r := by
      rw [bytes, heq, List.append_assoc, encode_append]
      rfl
    refine ⟨⟨encode r, ?_⟩, fun _ => ?_, ?_, fun h => absurd (newline_mem_encode.mpr hn) h⟩
    · rw [hline, hcontent]
    · rw [hline, List.getLast?_concat]
    · rw [hline, List.dropLast_concat]
      exact mt newline_mem_encode.mp hl
  · have hwhole : String.ofList (firstLine content.toList) = content := by
      rw [firstLine_of_not_mem hn, String.ofList_toList]
    have hbytes : 0x0A ∉ bytes content := mt newline_mem_encode.mp hn
    rw [hwhole]
    exact ⟨List.prefix_rfl, fun h => absurd h hbytes,
      fun h => hbytes ((List.dropLast_prefix _).subset h), fun _ => rfl⟩

end LicenseHeader.Text

namespace LicenseHeader.Header
open Text

section
variable {content header : String} {n : Nat}

theorem insertAt?_eq_none_iff : insertAt? content n header = none ↔
    content.utf8ByteSize < n ∨ InsideCharacter content.toList n := by
  rw [insertAt?, Option.map_eq_none_iff, splitAtByte?_eq_none_iff]

theorem isAt_empty : isAt content n "" = (splitAtByte? content n).isSome := by
  rw [isAt]
  cases splitAtByte? content n with
  | none => rfl
  | some cut => exact (startsWithBytes_iff "" cut.2).mpr List.nil_prefix

theorem isAt_empty_eq_false_iff : isAt content n "" = false ↔
    content.utf8ByteSize < n ∨ InsideCharacter content.toList n := by
  rw [isAt_empty, Option.isSome_eq_false_iff, Option.isNone_iff_eq_none, splitAtByte?_eq_none_iff]

theorem isAt_eq_false (h : splitAtByte? content n = none) : isAt content n header = false := by
  rw [isAt, h, Option.any_none]

/-- The offset of a header is no more than the size of the content and between two characters of it,
so that any header can be put in there. Before it stands nothing, or the directive line. Of all
offsets only those past the end or inside a character are no place for a header, and none stands
there, not even the empty one. -/
theorem offset_cuts_directive (content : String) :
    (offset content ≤ content.utf8ByteSize ∧
      (String.Pos.Raw.mk (offset content)).IsValid content) ∧
    (∃ before after, content = before ++ after ∧
      bytes before = (bytes content).take (offset content) ∧
      (if StartsDirective content.toList then IsFirstLine before content else before = "") ∧
      ∀ header, insertAt? content (offset content) header =
        some (before ++ header ++ "\n" ++ after)) ∧
    ∀ n, let noPlace := content.utf8ByteSize < n ∨ InsideCharacter content.toList n
      (∀ header, insertAt? content n header = none ↔ noPlace) ∧
      ((∀ header, isAt content n header = false) ↔ noPlace) ∧
      (isAt content n "" = false ↔ noPlace) := by
  have hcut := splitAtByte?_offset content
  have valid : (String.Pos.Raw.mk (offset content)).IsValid content :=
    isValid_iff_exists_splitAtByte?.mpr ⟨_, _, hcut⟩
  refine ⟨⟨valid.le_rawEndPos, valid⟩, ⟨String.ofList (directive content.toList),
    String.ofList (body content.toList), (splitAtByte?_eq_some.mp hcut).1.symm,
    bytes_before_cut hcut, ?_, fun header => ?_⟩, fun n => ?_⟩
  · split
    · next hd =>
      rw [directive, if_pos hd]
      exact isFirstLine_firstLine content
    · next hd => rw [directive_of_not hd, String.ofList_nil]
  · rw [insertAt?, hcut, Option.map_some]
  · refine ⟨fun header => insertAt?_eq_none_iff, ⟨fun h => ?_, fun h header => ?_⟩,
      isAt_empty_eq_false_iff⟩
    · exact isAt_empty_eq_false_iff.mp (h "")
    · exact isAt_eq_false (splitAtByte?_eq_none_iff.mpr h)

/-- The line that is cut off may have characters of several bytes, and none of them is cut. -/
example : offset "#!é\nx" = 5 ∧ insertAt? "#!é\nx" 3 "" = none := by decide +kernel

end
end LicenseHeader.Header
