import LicenseHeader.Toml.Reader

/-! Strings and keys of TOML. -/
namespace LicenseHeader.Toml

def hexDigit? (c : Char) : Option Nat :=
  if '0' ≤ c && c ≤ '9' then some (c.toNat - '0'.toNat)
  else if 'a' ≤ c && c ≤ 'f' then some (c.toNat - 'a'.toNat + 10)
  else if 'A' ≤ c && c ≤ 'F' then some (c.toNat - 'A'.toNat + 10)
  else none

def hexChar? (n : Nat) (cs : List Char) : Option (Char × List Char) := do
  let digits ← (cs.take n).mapM hexDigit?
  let code := digits.foldl (fun v d => 16 * v + d) 0
  if digits.length = n ∧ code.isValidChar then some (Char.ofNat code, cs.drop n) else none

def escape? : List Char → Option (Char × List Char)
  | 'b' :: rest => some ('\x08', rest)
  | 't' :: rest => some ('\t', rest)
  | 'n' :: rest => some ('\n', rest)
  | 'f' :: rest => some ('\x0c', rest)
  | 'r' :: rest => some ('\r', rest)
  | 'e' :: rest => some ('\x1b', rest)
  | '"' :: rest => some ('"', rest)
  | '\\' :: rest => some ('\\', rest)
  | 'x' :: rest => hexChar? 2 rest
  | 'u' :: rest => hexChar? 4 rest
  | 'U' :: rest => hexChar? 8 rest
  | _ => none

/-- The text of a string up to its closing quote, and the rest. The fuel is at least the number
of characters. -/
def basic? : Nat → List Char → Option (List Char × List Char)
  | 0, _ => none
  | _ + 1, '"' :: rest => some ([], rest)
  | fuel + 1, '\\' :: rest => do
    let (c, rest) ← escape? rest
    let (text, rest) ← basic? fuel rest
    return (c :: text, rest)
  | fuel + 1, c :: rest => do
    if isControl c then none
    let (text, rest) ← basic? fuel rest
    return (c :: text, rest)
  | _ + 1, [] => none

def literal? : List Char → Option (List Char × List Char)
  | '\'' :: rest => some ([], rest)
  | c :: rest => do
    if isControl c then none
    let (text, rest) ← literal? rest
    return (c :: text, rest)
  | [] => none

/-- The quotes that end a text of several lines, read after its closing three: up to two more
belong to the text. -/
def lastQuotes (quote : Char) : List Char → List Char × List Char
  | a :: b :: rest =>
    if a = quote then if b = quote then ([a, b], rest) else ([a], b :: rest)
    else ([], a :: b :: rest)
  | [a] => if a = quote then ([a], []) else ([], [a])
  | [] => ([], [])

/-- The characters after a line break that a backslash takes out of a text: blanks with at
least one line end among them. -/
def afterBreak? (broken : Bool) : List Char → Option (List Char)
  | '\n' :: rest => afterBreak? true rest
  | '\r' :: '\n' :: rest => afterBreak? true rest
  | c :: rest =>
    if isSpace c then afterBreak? broken rest else if broken then some (c :: rest) else none
  | [] => none

def longBasic? : Nat → List Char → Option (List Char × List Char)
  | 0, _ => none
  | _ + 1, '"' :: '"' :: '"' :: rest => some (lastQuotes '"' rest)
  | fuel + 1, '\\' :: rest => do
    match afterBreak? false rest with
    | some rest => longBasic? fuel rest
    | none =>
      let (c, rest) ← escape? rest
      let (text, rest) ← longBasic? fuel rest
      return (c :: text, rest)
  | fuel + 1, '\r' :: '\n' :: rest => do
    let (text, rest) ← longBasic? fuel rest
    return ('\r' :: '\n' :: text, rest)
  | fuel + 1, c :: rest => do
    if isControl c && c != '\n' then none
    let (text, rest) ← longBasic? fuel rest
    return (c :: text, rest)
  | _ + 1, [] => none

def longLiteral? : List Char → Option (List Char × List Char)
  | '\'' :: '\'' :: '\'' :: rest => some (lastQuotes '\'' rest)
  | '\r' :: '\n' :: rest => do
    let (text, rest) ← longLiteral? rest
    return ('\r' :: '\n' :: text, rest)
  | c :: rest => do
    if isControl c && c != '\n' then none
    let (text, rest) ← longLiteral? rest
    return (c :: text, rest)
  | [] => none

/-- A line end at the start of a text of several lines is not part of it. -/
def dropFirstLineEnd : List Char → List Char
  | '\n' :: rest => rest
  | '\r' :: '\n' :: rest => rest
  | cs => cs

def shortString : Reader String := Reader.ofCut fun
  | '"' :: rest => (basic? (rest.length + 1) rest).map fun (t, r) => (String.ofList t, r)
  | '\'' :: rest => (literal? rest).map fun (t, r) => (String.ofList t, r)
  | _ => none

def anyString : Reader String := Reader.ofCut fun
  | '"' :: '"' :: '"' :: rest =>
    (longBasic? (rest.length + 1) (dropFirstLineEnd rest)).map fun (t, r) => (String.ofList t, r)
  | '\'' :: '\'' :: '\'' :: rest =>
    (longLiteral? (dropFirstLineEnd rest)).map fun (t, r) => (String.ofList t, r)
  | cs => shortString cs

def isBareKeyChar (c : Char) : Bool :=
  c.isAlphanum || c == '-' || c == '_'

def simpleKey : Reader String := do
  match ← Reader.peek with
  | some '"' => shortString
  | some '\'' => shortString
  | _ =>
    let key ← Reader.span isBareKeyChar
    if key.isEmpty then failure else return String.ofList key

def dottedKey : Nat → Reader (List String)
  | 0 => failure
  | fuel + 1 => do
    let key ← simpleKey
    skipSpace
    if ← Reader.accept ['.'] then
      skipSpace
      return key :: (← dottedKey fuel)
    else return [key]

end LicenseHeader.Toml
