import LicenseHeader.Header.Placement
import LicenseHeader.Proofs.Encoding

/-! Where a text can be cut: at the offsets between its characters, of which none is past the end
or inside a character. -/
namespace LicenseHeader.Text

theorem startsWithBytes_iff (head s : String) :
    startsWithBytes head s = true ↔ head.toList <+: s.toList := by
  rw [startsWithBytes, List.isPrefixOf_iff_prefix]
  constructor
  · exact isPrefix_of_encode
  · rintro ⟨t, ht⟩
    exact ⟨encode t, by rw [bytes, bytes, ← ht, encode_append]⟩

theorem cutAtByte?_append (before after : List Char) :
    cutAtByte? (encode before).length (before ++ after) = some (before, after) := by
  induction before with
  | nil => simp [cutAtByte?]
  | cons c before ih =>
    have hpos := c.utf8Size_pos
    have hlen : (encode (c :: before)).length = (encode before).length + c.utf8Size := by
      simp [Nat.add_comm]
    obtain ⟨n, hn⟩ := Nat.exists_eq_succ_of_ne_zero (n := (encode (c :: before)).length) (by omega)
    have hle : c.utf8Size ≤ n + 1 := by omega
    have hsub : n + 1 - c.utf8Size = (encode before).length := by omega
    rw [hn, List.cons_append, cutAtByte?, if_pos hle, hsub, ih]
    rfl

theorem cutAtByte?_eq_some {n : Nat} {cs before after : List Char} :
    cutAtByte? n cs = some (before, after) ↔
      before ++ after = cs ∧ (encode before).length = n := by
  constructor
  · intro h
    fun_induction cutAtByte? n cs generalizing before with
    | case1 cs =>
      obtain ⟨rfl, rfl⟩ := Prod.mk.inj (Option.some.inj h)
      exact ⟨rfl, rfl⟩
    | case2 => cases h
    | case3 n c cs hle ih =>
      obtain ⟨⟨b, a⟩, hcut, heq⟩ := Option.map_eq_some_iff.mp h
      obtain ⟨rfl, rfl⟩ := Prod.mk.inj heq
      obtain ⟨rfl, hlen⟩ := ih hcut
      refine ⟨rfl, ?_⟩
      simp only [encode_cons, List.length_append, String.length_utf8EncodeChar, hlen]
      omega
    | case4 => cases h
  · rintro ⟨rfl, rfl⟩
    exact cutAtByte?_append before after

theorem splitAtByte?_eq_some {s before after : String} {n : Nat} :
    splitAtByte? s n = some (before, after) ↔ before ++ after = s ∧ (bytes before).length = n := by
  simp only [splitAtByte?, Option.map_eq_some_iff, Prod.mk.injEq, Prod.exists, cutAtByte?_eq_some]
  constructor
  · rintro ⟨b, a, ⟨hcs, hlen⟩, rfl, rfl⟩
    refine ⟨?_, by rwa [bytes, String.toList_ofList]⟩
    rw [← String.ofList_append, hcs, String.ofList_toList]
  · rintro ⟨rfl, hlen⟩
    exact ⟨before.toList, after.toList, ⟨String.toList_append.symm, hlen⟩,
      String.ofList_toList, String.ofList_toList⟩

section
variable {c : Char} {cs : List Char} {s before after : String} {n : Nat}

theorem length_bytes (s : String) : (bytes s).length = s.utf8ByteSize := by
  rw [← data_toUTF8, Array.length_toList]
  rfl

/-- Whether an offset falls between two bytes of one character. -/
def InsideCharacter (cs : List Char) (n : Nat) : Prop :=
  ∃ before c after, cs = before ++ c :: after ∧
    (encode before).length < n ∧ n < (encode before).length + c.utf8Size

theorem not_insideCharacter_zero : ¬ InsideCharacter cs 0 := by
  rintro ⟨before, c, after, -, h, -⟩
  exact Nat.not_lt_zero _ h

/-- An offset is inside the first character, or beyond it and inside one of the others. -/
theorem insideCharacter_cons : InsideCharacter (c :: cs) n ↔
    0 < n ∧ n < c.utf8Size ∨ c.utf8Size ≤ n ∧ InsideCharacter cs (n - c.utf8Size) := by
  constructor
  · rintro ⟨before, d, after, heq, hlo, hhi⟩
    cases before with
    | nil =>
      obtain ⟨rfl, rfl⟩ := List.cons.inj heq
      simp only [encode_nil, List.length_nil] at hlo hhi
      exact .inl ⟨hlo, by omega⟩
    | cons b before =>
      obtain ⟨rfl, rfl⟩ := List.cons.inj heq
      simp only [encode_cons, List.length_append, String.length_utf8EncodeChar] at hlo hhi
      exact .inr ⟨by omega, before, d, after, rfl, by omega, by omega⟩
  · rintro (⟨hlo, hhi⟩ | ⟨hle, before, d, after, rfl, hlo, hhi⟩)
    · exact ⟨[], c, cs, rfl, hlo, by simpa using hhi⟩
    · refine ⟨c :: before, d, after, rfl, ?_, ?_⟩
      all_goals
        simp only [encode_cons, List.length_append, String.length_utf8EncodeChar]
        omega

theorem cutAtByte?_eq_none_iff :
    cutAtByte? n cs = none ↔ (encode cs).length < n ∨ InsideCharacter cs n := by
  fun_induction cutAtByte? n cs with
  | case1 cs => simp [not_insideCharacter_zero]
  | case2 n => simp
  | case3 n c cs hle ih =>
    have hlen : (encode (c :: cs)).length < n + 1 ↔ (encode cs).length < n + 1 - c.utf8Size := by
      simp only [encode_cons, List.length_append, String.length_utf8EncodeChar]
      omega
    have hfirst : ¬ n + 1 < c.utf8Size := Nat.not_lt_of_le hle
    rw [Option.map_eq_none_iff, ih, hlen, insideCharacter_cons]
    simp [hle, hfirst]
  | case4 n c cs hlt =>
    -- the offset is not past the first character, which is where the cut would go through
    have hinside : InsideCharacter (c :: cs) (n + 1) :=
      insideCharacter_cons.mpr (.inl ⟨n.succ_pos, Nat.lt_of_not_le hlt⟩)
    exact iff_of_true rfl (.inr hinside)

/-- A text has no cut past its end and inside its characters, and only there. -/
theorem splitAtByte?_eq_none_iff :
    splitAtByte? s n = none ↔ s.utf8ByteSize < n ∨ InsideCharacter s.toList n := by
  rw [splitAtByte?, Option.map_eq_none_iff, cutAtByte?_eq_none_iff, ← length_bytes, bytes]

theorem isValid_iff_exists_splitAtByte? : (String.Pos.Raw.mk n).IsValid s ↔
    ∃ before after, splitAtByte? s n = some (before, after) := by
  rw [String.Pos.Raw.isValid_iff_exists_append]
  refine exists_congr fun before => exists_congr fun after => ?_
  rw [splitAtByte?_eq_some, length_bytes, String.Pos.Raw.ext_iff, String.byteIdx_rawEndPos,
    eq_comm (a := s), eq_comm (a := n)]

theorem bytes_before_cut (h : splitAtByte? s n = some (before, after)) :
    bytes before = (bytes s).take n := by
  obtain ⟨rfl, rfl⟩ := splitAtByte?_eq_some.mp h
  rw [bytes_append, List.take_left]

end
end LicenseHeader.Text
