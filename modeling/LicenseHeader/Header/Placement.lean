import LicenseHeader.Text

/-! Where a header belongs in a file, whether it is there, and how it gets there. Offsets count the
bytes of UTF-8. -/
namespace LicenseHeader

namespace Text

/-- Cut a list of characters after `n` bytes of its encoding. There is no cut past the end
or inside a character. -/
def cutAtByte? : Nat → List Char → Option (List Char × List Char)
  | 0, cs => some ([], cs)
  | _ + 1, [] => none
  | n + 1, c :: cs =>
    if c.utf8Size ≤ n + 1 then
      (cutAtByte? (n + 1 - c.utf8Size) cs).map fun (before, after) => (c :: before, after)
    else none
termination_by structural _ cs => cs

def splitAtByte? (s : String) (n : Nat) : Option (String × String) :=
  (cutAtByte? n s.toList).map fun (before, after) => (String.ofList before, String.ofList after)

def startsWithBytes (head s : String) : Bool :=
  (bytes head).isPrefixOf (bytes s)

end Text

namespace Header

/-- The offset in bytes at which a header belongs: after the first line if that is an
interpreter directive, and at the start otherwise. -/
def offset (content : String) : Nat :=
  match content.toList with
  | '#' :: '!' :: rest => (Text.encode (Text.firstLine ('#' :: '!' :: rest))).length
  | _ => 0

/-- Whether the bytes of a header stand at an offset. They do not stand past the end or inside
a character. -/
def isAt (content : String) (offset : Nat) (header : String) : Bool :=
  (Text.splitAtByte? content offset).any fun (_, after) => Text.startsWithBytes header after

/-- Put a header and a newline at an offset, which must not be past the end or inside a
character. -/
def insertAt? (content : String) (offset : Nat) (header : String) : Option String :=
  (Text.splitAtByte? content offset).map fun (before, after) => before ++ header ++ "\n" ++ after

def round (content header : String) : Bool × String :=
  let o := offset content
  if isAt content o header then (true, content)
  else (false, (insertAt? content o header).getD content)

end Header
end LicenseHeader
