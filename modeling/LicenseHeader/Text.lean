/-! Texts: their lines, the blanks around them, and their bytes. -/
namespace LicenseHeader.Text

/-- The lines of a text, without their newlines. A text with `n` newlines has `n + 1` lines. -/
def lines (s : String) : List String :=
  (s.toList.splitOn '\n').map String.ofList

def unlines (ls : List String) : String :=
  String.ofList (['\n'].intercalate (ls.map String.toList))

def firstLine : List Char → List Char
  | [] => []
  | c :: cs => if c = '\n' then [c] else c :: firstLine cs

/-- The characters with the Unicode property White_Space. -/
def isBlank (c : Char) : Bool :=
  let n := c.toNat
  (0x09 ≤ n && n ≤ 0x0D) || n == 0x20 || n == 0x85 || n == 0xA0 || n == 0x1680 ||
    (0x2000 ≤ n && n ≤ 0x200A) || n == 0x2028 || n == 0x2029 || n == 0x202F ||
    n == 0x205F || n == 0x3000

def dropBlankEnd (cs : List Char) : List Char :=
  (cs.reverse.dropWhile isBlank).reverse

def dropBlankEnds (cs : List Char) : List Char :=
  dropBlankEnd (cs.dropWhile isBlank)

def trimEnd (s : String) : String :=
  String.ofList (dropBlankEnd s.toList)

def trim (s : String) : String :=
  String.ofList (dropBlankEnds s.toList)

def byteOrderMark : Char := '\ufeff'

def encode (cs : List Char) : List UInt8 :=
  cs.flatMap String.utf8EncodeChar

def bytes (s : String) : List UInt8 :=
  encode s.toList

/-- Texts in the order of their bytes, which is also the order of their code points. -/
def byteLt (a b : String) : Prop := bytes a < bytes b

instance (a b : String) : Decidable (byteLt a b) :=
  inferInstanceAs (Decidable (bytes a < bytes b))

theorem bytes_injective {a b : String} (h : bytes a = bytes b) : a = b := by
  have eq (s : String) : s.toByteArray = (bytes s).toByteArray := by
    conv => lhs; rw [← String.ofList_toList (s := s)]
    rfl
  apply String.toByteArray_inj.1
  rw [eq, eq, h]

theorem byteLt_irrefl (a : String) : ¬ byteLt a a :=
  List.lt_irrefl (bytes a)

theorem byteLt_trans {a b c : String} (hab : byteLt a b) (hbc : byteLt b c) : byteLt a c :=
  List.lt_trans hab hbc

theorem byteLt_of_not_byteLt {a b : String} (hab : ¬ byteLt a b) (ne : a ≠ b) : byteLt b a := by
  rcases List.le_iff_lt_or_eq.1 (List.not_lt.1 hab) with h | h
  · exact h
  · exact absurd (bytes_injective h).symm ne

def decode? (b : ByteArray) : Option String :=
  String.fromUTF8? b

end LicenseHeader.Text
