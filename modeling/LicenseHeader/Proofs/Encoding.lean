import LicenseHeader.Text

/-! Byte offsets and byte comparisons of texts, said in characters. -/
namespace LicenseHeader.Text

@[simp] theorem encode_nil : encode [] = [] := rfl

@[simp] theorem encode_cons (c : Char) (cs : List Char) :
    encode (c :: cs) = String.utf8EncodeChar c ++ encode cs := rfl

@[simp] theorem encode_append (a b : List Char) : encode (a ++ b) = encode a ++ encode b :=
  List.flatMap_append

@[simp] theorem bytes_append (a b : String) : bytes (a ++ b) = bytes a ++ bytes b := by
  simp [bytes]

/-- No character's bytes go on as those of another character. -/
theorem utf8EncodeChar_append_inj {c d : Char} {x y : List UInt8}
    (h : String.utf8EncodeChar c ++ x = String.utf8EncodeChar d ++ y) : c = d ∧ x = y := by
  have decoded (e : Char) (z : List UInt8) :
      ByteArray.utf8DecodeChar? (String.utf8EncodeChar e ++ z).toByteArray 0 = some e := by
    rw [List.toByteArray_append]
    exact ByteArray.utf8DecodeChar?_utf8EncodeChar_append
  have hc : some c = some d := by rw [← decoded c x, h, decoded d y]
  have hcd : c = d := Option.some.inj hc
  subst d
  exact ⟨rfl, List.append_cancel_left h⟩

theorem utf8EncodeChar_of_lt {c : Char} (hc : c.toNat < 128) :
    String.utf8EncodeChar c = [UInt8.ofNat c.toNat] := by
  have hle : c.toNat ≤ 127 := by omega
  simp [String.utf8EncodeChar, hle]

/-- A byte below 128 is a character of its own. -/
theorem utf8EncodeChar_of_mem {c : Char} {b : UInt8} (hb : b.toNat < 128)
    (h : b ∈ String.utf8EncodeChar c) : String.utf8EncodeChar c = [b] ∧ c.toNat = b.toNat := by
  by_cases hc : c.toNat ≤ 127
  · rw [utf8EncodeChar_of_lt (by omega)] at h ⊢
    obtain rfl := List.mem_singleton.mp h
    exact ⟨rfl, by rw [UInt8.toNat_ofNat']; omega⟩
  · have hlarge : 128 ≤ b.toNat := by
      have hc' : ¬ c.val.toNat ≤ 127 := hc
      unfold String.utf8EncodeChar at h
      simp only [hc', if_false] at h
      split at h
      · simp only [List.mem_cons, List.not_mem_nil, or_false] at h
        rcases h with rfl | rfl <;> rw [UInt8.toNat_ofNat'] <;> omega
      · split at h
        · simp only [List.mem_cons, List.not_mem_nil, or_false] at h
          rcases h with rfl | rfl | rfl <;> rw [UInt8.toNat_ofNat'] <;> omega
        · simp only [List.mem_cons, List.not_mem_nil, or_false] at h
          rcases h with rfl | rfl | rfl | rfl <;> rw [UInt8.toNat_ofNat'] <;> omega
    omega

theorem isPrefix_of_encode {a b : List Char} (h : encode a <+: encode b) : a <+: b := by
  induction a generalizing b with
  | nil => exact List.nil_prefix
  | cons c a ih =>
    obtain ⟨t, ht⟩ := h
    cases b with
    | nil => simp [String.utf8EncodeChar_ne_nil] at ht
    | cons d b =>
      simp only [encode_cons, List.append_assoc] at ht
      obtain ⟨hcd, hrest⟩ := utf8EncodeChar_append_inj ht
      rw [hcd, List.cons_prefix_cons]
      exact ⟨rfl, ih ⟨t, hrest⟩⟩

theorem encode_injective {a b : List Char} (h : encode a = encode b) : a = b := by
  have hab : a <+: b := isPrefix_of_encode (h ▸ List.prefix_rfl)
  have hba : b <+: a := isPrefix_of_encode (h ▸ List.prefix_rfl)
  exact hab.eq_of_length_le hba.length_le

/-- A character below 128 is where its byte is. -/
theorem mem_encode_iff {c : Char} (hc : c.toNat < 128) {cs : List Char} :
    UInt8.ofNat c.toNat ∈ encode cs ↔ c ∈ cs := by
  have hbyte : (UInt8.ofNat c.toNat).toNat = c.toNat := by
    rw [UInt8.toNat_ofNat']
    omega
  rw [encode, List.mem_flatMap]
  constructor
  · rintro ⟨d, hd, hmem⟩
    have heq := (utf8EncodeChar_of_mem (by rwa [hbyte]) hmem).2
    rw [hbyte] at heq
    exact Char.toNat_inj.mp heq ▸ hd
  · intro h
    exact ⟨c, h, by simp [utf8EncodeChar_of_lt hc]⟩

theorem encode_eq_append_cons {c : Char} (hc : c.toNat < 128) {cs after : List Char}
    {before : List UInt8} :
    encode cs = before ++ encode (c :: after) ↔
      ∃ stem, cs = stem ++ c :: after ∧ encode stem = before := by
  constructor
  · intro h
    induction cs generalizing before with
    | nil => simp [String.utf8EncodeChar_ne_nil] at h
    | cons d cs ih =>
      rw [encode_cons, List.append_eq_append_iff] at h
      rcases h with ⟨more, rfl, hcs⟩ | ⟨more, hd, hcs⟩
      · obtain ⟨stem, rfl, rfl⟩ := ih hcs
        exact ⟨d :: stem, rfl, rfl⟩
      · cases more with
        | nil =>
          have hrest : encode cs = [] ++ encode (c :: after) := hcs.symm
          obtain ⟨stem, rfl, hstem⟩ := ih hrest
          exact ⟨d :: stem, rfl, by rw [encode_cons, hstem, hd, List.append_nil, List.append_nil]⟩
        | cons b more =>
          -- the byte of `c` is one of those of `d`, which then has no others
          rw [encode_cons, utf8EncodeChar_of_lt hc] at hcs
          obtain ⟨rfl, hafter⟩ := List.cons.inj hcs
          have hmem : UInt8.ofNat c.toNat ∈ encode [d] := by simp [hd]
          obtain rfl : c = d := by simpa using (mem_encode_iff hc).mp hmem
          rw [utf8EncodeChar_of_lt hc, eq_comm, List.append_eq_singleton_iff] at hd
          obtain ⟨rfl, hone⟩ | ⟨-, hnil⟩ := hd
          · obtain rfl : more = [] := (List.cons.inj hone).2
            exact ⟨[], by rw [encode_injective hafter]; rfl, rfl⟩
          · cases hnil
  · rintro ⟨stem, rfl, rfl⟩
    exact encode_append _ _

theorem decode?_eq_some {b : ByteArray} {s : String} : decode? b = some s ↔ b = s.toUTF8 := by
  rw [decode?, String.fromUTF8?]
  constructor
  · intro h
    split at h
    · rw [← Option.some.inj h]
      rfl
    · cases h
  · rintro rfl
    rw [String.toUTF8_eq_toByteArray, dif_pos s.isValidUTF8]
    rfl

@[simp] theorem decode?_toUTF8 (s : String) : decode? s.toUTF8 = some s :=
  decode?_eq_some.2 rfl

theorem data_toUTF8 (s : String) : s.toUTF8.data.toList = bytes s := by
  rw [String.toUTF8_eq_toByteArray, ← String.utf8Encode_toList, List.utf8Encode]
  simp [bytes, encode]

end LicenseHeader.Text
