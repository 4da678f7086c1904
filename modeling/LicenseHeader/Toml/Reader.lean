/-! Reading TOML text from left to right: blanks, comments and line ends. -/
namespace LicenseHeader.Toml

/-- A step that reads some characters and leaves the rest, or refuses the text. -/
abbrev Reader := StateT (List Char) Option

namespace Reader

def peek : Reader (Option Char) := fun cs => some (cs.head?, cs)

def expect (c : Char) : Reader Unit
  | d :: rest => if d = c then some ((), rest) else none
  | [] => none

def span (p : Char → Bool) : Reader (List Char) := fun cs =>
  some (cs.takeWhile p, cs.dropWhile p)

def accept (word : List Char) : Reader Bool := fun cs =>
  if word.isPrefixOf cs then some (true, cs.drop word.length) else some (false, cs)

def ofCut {α : Type} (f : List Char → Option (α × List Char)) : Reader α := f

end Reader

/-- The control characters, which no part of a document may hold. The tab is not one of them. -/
def isControl (c : Char) : Bool :=
  (c.toNat < 0x20 && c != '\t') || c.toNat == 0x7F

def isSpace (c : Char) : Bool :=
  c == ' ' || c == '\t'

def skipSpace : Reader Unit := do
  let _ ← Reader.span isSpace

/-- The characters after blanks, line ends and comments. A comment lasts to the end of its
line. -/
def afterBlank (inComment : Bool) : List Char → Option (List Char)
  | [] => some []
  | '\n' :: rest => afterBlank false rest
  | '\r' :: '\n' :: rest => afterBlank false rest
  | c :: rest =>
    if inComment then if isControl c then none else afterBlank true rest
    else if isSpace c then afterBlank false rest
    else if c == '#' then afterBlank true rest
    else some (c :: rest)

def skipBlank : Reader Unit := fun cs => (afterBlank false cs).map ((), ·)

def afterLineEnd (inComment : Bool) : List Char → Option (List Char)
  | [] => some []
  | '\n' :: rest => some rest
  | '\r' :: '\n' :: rest => some rest
  | c :: rest =>
    if inComment then if isControl c then none else afterLineEnd true rest
    else if isSpace c then afterLineEnd false rest
    else if c == '#' then afterLineEnd true rest
    else none

def lineEnd : Reader Unit := fun cs => (afterLineEnd false cs).map ((), ·)

end LicenseHeader.Toml
