import LicenseHeader.Header.Placement
import LicenseHeader.Proofs.Boundaries

/-! A header at one offset: whether it stands there, and how it is put in and cut out again. -/
namespace LicenseHeader.Header
open Text

section
variable {a b before rest content header old new : String} {o : Nat}

theorem isAt_of_cut (h : splitAtByte? content o = some (before, rest)) :
    isAt content o header = true ↔ ∃ after, content = before ++ header ++ after := by
  obtain ⟨rfl, -⟩ := splitAtByte?_eq_some.mp h
  rw [isAt, h, Option.any_some, startsWithBytes_iff]
  constructor
  · -- the bytes of the header end between two characters, so a text follows them
    rintro ⟨after, hafter⟩
    have hrest : rest = header ++ String.ofList after := by simp [← String.toList_inj, ← hafter]
    exact ⟨String.ofList after, by rw [hrest, String.append_assoc]⟩
  · rintro ⟨after, hafter⟩
    rw [String.append_assoc, String.append_right_inj] at hafter
    rw [hafter, String.toList_append]
    exact List.prefix_append _ _

theorem isAt_iff : isAt content o header = true ↔
    ∃ before after, content = before ++ header ++ after ∧ (bytes before).length = o := by
  constructor
  · intro h
    obtain ⟨⟨before, rest⟩, hcut, -⟩ := (Option.any_eq_true _ _).mp h
    obtain ⟨after, hafter⟩ := (isAt_of_cut hcut).mp h
    exact ⟨before, after, hafter, (splitAtByte?_eq_some.mp hcut).2⟩
  · rintro ⟨before, after, rfl, hlen⟩
    have hcut : splitAtByte? (before ++ header ++ after) o = some (before, header ++ after) :=
      splitAtByte?_eq_some.mpr ⟨by rw [String.append_assoc], hlen⟩
    exact (isAt_of_cut hcut).mpr ⟨after, rfl⟩

/-- Where a header was put in, it is. -/
theorem isAt_of_insertAt? (h : insertAt? content o header = some new) :
    isAt new o header = true := by
  obtain ⟨⟨before, after⟩, hcut, rfl⟩ := Option.map_eq_some_iff.mp h
  have hlen := (splitAtByte?_eq_some.mp hcut).2
  exact isAt_iff.mpr ⟨before, "\n" ++ after, by simp [String.append_assoc], hlen⟩

/-- Cutting a header out again, with its newline, restores the content. -/
theorem cut_of_insertAt? (h : insertAt? old o header = some new) :
    (bytes new).take o ++ (bytes new).drop (o + ((bytes header).length + 1)) = bytes old := by
  obtain ⟨⟨before, after⟩, hcut, rfl⟩ := Option.map_eq_some_iff.mp h
  obtain ⟨rfl, rfl⟩ := splitAtByte?_eq_some.mp hcut
  have hnewline : (bytes "\n").length = 1 := by decide
  have hbytes : bytes (before ++ header ++ "\n" ++ after) =
      bytes before ++ (bytes header ++ bytes "\n" ++ bytes after) := by simp
  have hcut : (bytes header ++ bytes "\n" ++ bytes after).drop ((bytes header).length + 1) =
      bytes after := by
    rw [← hnewline, ← List.length_append, List.drop_left]
  rw [hbytes, List.take_left, ← List.drop_drop, List.drop_left, hcut, bytes_append]

theorem insertAt?_inj (ha : insertAt? a o header = some new)
    (hb : insertAt? b o header = some new) : a = b := by
  apply bytes_injective
  rw [← cut_of_insertAt? ha, ← cut_of_insertAt? hb]

/-- Checking and inserting at an offset between two characters undo each other. A header is found
there if the content is what is before the offset, the header, and something more. Put in, it is
found, and cutting it out with its newline gives the content back, so no other content becomes the
same. -/
theorem insertion_undone (valid : (String.Pos.Raw.mk o).IsValid content) (header : String) :
    ∃ before rest, content = before ++ rest ∧ bytes before = (bytes content).take o ∧
      (isAt content o header = true ↔ ∃ after, content = before ++ header ++ after) ∧
      let new := before ++ header ++ "\n" ++ rest
      insertAt? content o header = some new ∧ isAt new o header = true ∧
        (bytes new).take o ++ (bytes new).drop (o + ((bytes header).length + 1)) = bytes content ∧
        ∀ other, insertAt? other o header = some new → other = content := by
  obtain ⟨before, rest, hcut⟩ := isValid_iff_exists_splitAtByte?.mp valid
  have hinsert : insertAt? content o header = some (before ++ header ++ "\n" ++ rest) := by
    rw [insertAt?, hcut, Option.map_some]
  exact ⟨before, rest, (splitAtByte?_eq_some.mp hcut).1.symm, bytes_before_cut hcut,
    isAt_of_cut hcut, hinsert, isAt_of_insertAt? hinsert, cut_of_insertAt? hinsert,
    fun _ hother => insertAt?_inj hother hinsert⟩

/-- Offsets count bytes: the first line has two characters and three bytes. -/
theorem insertion_undone_accented :
    (String.Pos.Raw.mk 3).IsValid "é\nß\n" ∧ isAt "é\nß\n" 3 "ß" = true ∧
      insertAt? "é\nß\n" 3 "ß" = some "é\nß\nß\n" ∧ isAt "é\nß\nß\n" 3 "ß" = true ∧
      (bytes "é\nß\nß\n").take 3 ++ (bytes "é\nß\nß\n").drop 6 = bytes "é\nß\n" ∧
      ∀ other, insertAt? other 3 "ß" = some "é\nß\nß\n" → other = "é\nß\n" := by
  have valid : (String.Pos.Raw.mk 3).IsValid "é\nß\n" := by decide +kernel
  obtain ⟨before, rest, hcontent, hbefore, hiff, hundone⟩ := insertion_undone valid "ß"
  obtain rfl : before = "é\n" := bytes_injective (hbefore.trans (by decide +kernel))
  obtain rfl : "ß\n" = rest := (String.append_right_inj "é\n").mp hcontent
  exact ⟨valid, hiff.mpr ⟨"\n", rfl⟩, hundone⟩

end
end LicenseHeader.Header
