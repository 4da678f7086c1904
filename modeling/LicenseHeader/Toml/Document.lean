import LicenseHeader.Toml.Moment
import LicenseHeader.Toml.Quoted
import LicenseHeader.Toml.Table

/-! Documents of TOML 1.1. -/
namespace LicenseHeader.Toml

def isWordChar (c : Char) : Bool :=
  c.isAlphanum || c == '_' || c == '+' || c == '-' || c == '.' || c == ':'

def wordValue? (word : List Char) : Option Value :=
  (boolean? word).map .boolean <|> (integer? word).map .integer <|> (float? word).map .float <|>
    (if isMoment word then some (.moment (String.ofList word)) else none)

/-- Read a value without quotes or brackets. One space may stand between a date and a time. -/
def word : Reader Value := Reader.ofCut fun cs =>
  let first := cs.takeWhile isWordChar
  let rest := cs.dropWhile isWordChar
  match rest with
  | ' ' :: c :: more =>
    if isDate first && c.isDigit then
      let time := (c :: more).takeWhile isWordChar
      (wordValue? (first ++ ' ' :: time)).map (·, (c :: more).dropWhile isWordChar)
    else (wordValue? first).map (·, rest)
  | rest => (wordValue? first).map (·, rest)

def maxDepth : Nat := 80

def keyAndEquals : Reader (List String × String) := do
  let keys ← dottedKey ((← get).length + 1)
  Reader.expect '='
  skipSpace
  match keys.getLast? with
  | some key => return (keys.dropLast, key)
  | none => failure

mutual

/-- Read a value that may hold `depth` levels of brackets. The fuel is at least the number of
characters. -/
def value (fuel depth : Nat) : Reader Value := do
  match fuel with
  | 0 => failure
  | fuel + 1 =>
    match ← Reader.peek with
    | some '"' => return .string (← anyString)
    | some '\'' => return .string (← anyString)
    | some '[' =>
      Reader.expect '['
      if depth = 0 then failure else return .array false (← items fuel (depth - 1))
    | some '{' =>
      Reader.expect '{'
      if depth = 0 then failure else members fuel (depth - 1) (.table .inline [])
    | _ => word

def items (fuel depth : Nat) : Reader (List Value) := do
  match fuel with
  | 0 => failure
  | fuel + 1 =>
    skipBlank
    if ← Reader.accept [']'] then return []
    let v ← value fuel depth
    skipBlank
    if ← Reader.accept [','] then return v :: (← items fuel depth)
    Reader.expect ']'
    return [v]

def members (fuel depth : Nat) (t : Value) : Reader Value := do
  match fuel with
  | 0 => failure
  | fuel + 1 =>
    skipBlank
    if ← Reader.accept ['}'] then return t
    let (path, key) ← keyAndEquals
    let v ← value fuel depth
    let t ← t.add path key v
    skipBlank
    if ← Reader.accept [','] then members fuel depth t
    else
      Reader.expect '}'
      return t

end

/-- A document so far: its table, and what the last header named. -/
structure Draft where
  root : Value
  header : Option (List String × String)

def header (d : Draft) : Reader Draft := do
  let ofTables ← Reader.accept ['[', '[']
  unless ofTables do Reader.expect '['
  skipSpace
  let keys ← dottedKey ((← get).length + 1)
  Reader.expect ']'
  if ofTables then Reader.expect ']'
  match keys.getLast? with
  | none => failure
  | some key =>
    let change := if ofTables then Value.openItem else Value.openTable
    let root ← d.root.alterHeader key change keys.dropLast
    return ⟨root, some (keys.dropLast, key)⟩

def keyValue (d : Draft) : Reader Draft := do
  let (path, key) ← keyAndEquals
  let v ← value ((← get).length + 1) maxDepth
  match d.header with
  | none => return { d with root := ← d.root.add path key v }
  | some (above, name) =>
    return { d with root := ← d.root.alterHeader name (Value.addUnder path key v) above }

/-- Read the lines of a document. The fuel is more than their number. -/
def lines (d : Draft) : Nat → Reader Value
  | 0 => failure
  | fuel + 1 => do
    skipBlank
    match ← Reader.peek with
    | none => return d.root
    | some c =>
      let d ← if c = '[' then header d else keyValue d
      lineEnd
      lines d fuel

/-- The table of a document, if the text is one. A byte order mark may stand before it. -/
def parse? (text : String) : Option Value :=
  let cs := match text.toList with
    | '\ufeff' :: rest => rest
    | cs => cs
  ((lines ⟨.table .header [], none⟩ (cs.length + 1)).run cs).map (·.1)

end LicenseHeader.Toml
