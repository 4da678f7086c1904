/-! Glob patterns for file names and relative paths, and reading them. -/
namespace LicenseHeader.Glob

/-- A piece of a pattern. Stars and single wildcards stay within a path segment. The last four
do not: any directories in front, anything below, any directories between, and a choice. -/
inductive Token
  | literal (c : Char)
  | oneByte
  | oneOf (negated : Bool) (ranges : List (Char × Char))
  | star
  | dirsBefore
  | allBelow
  | dirsBetween
  | choice (branches : List (List Token))
deriving Repr, Inhabited

inductive Error
  | unclosedClass
  | invalidRange (first last : Char)
  | danglingEscape
  | unclosedChoice
  | unopenedChoice
deriving DecidableEq, Repr

def Error.message : Error → String
  | unclosedClass => "unclosed character class; missing ']'"
  | invalidRange first last =>
    "invalid range; '" ++ first.toString ++ "' > '" ++ last.toString ++ "'"
  | danglingEscape => "dangling '\\'"
  | unclosedChoice =>
    "unclosed alternate group; missing '\x7d' (maybe escape '\x7b' with '[\x7b]'?)"
  | unopenedChoice =>
    "unopened alternate group; missing '\x7b' (maybe escape '\x7d' with '[\x7d]'?)"

/-- How reading a character class ended: at its bracket, at the end of the pattern, or at a
range whose ends are in the wrong order. -/
inductive ClassEnd
  | closed (ranges : List (Char × Char)) (rest : List Char)
  | unclosed
  | invalid (first last : Char)

/-- Read a character class after its opening bracket and its negation. `ranges` has what was
read, latest first, and `pending` says that a dash after the latest may make it a range. A
bracket that comes first is a member, and so is a dash without two neighbours. -/
def readClass (first pending : Bool) (ranges : List (Char × Char)) : List Char → ClassEnd
  | [] => .unclosed
  | c :: rest =>
    if c = ']' && !first then
      .closed ((if pending then ('-', '-') :: ranges else ranges).reverse) rest
    else if c = '-' && !first && !pending then readClass false true ranges rest
    else
      match pending, ranges with
      | true, (a, _) :: earlier =>
        if c < a then .invalid a c else readClass false false ((a, c) :: earlier) rest
      | _, _ => readClass false false ((c, c) :: ranges) rest

/-- A choice that is still open: what stands before it and its finished branches, latest
first. -/
structure OpenChoice where
  before : List Token
  branches : List (List Token)

/-- What was read so far: the tokens of the current branch, latest first, the open choices,
innermost first, the last character, and whether brackets stand for themselves from now on. -/
structure Draft where
  tokens : List Token
  choices : List OpenChoice
  last : Option Char
  plainBrackets : Bool

namespace Draft

def push (d : Draft) (t : Token) (c : Char) : Draft :=
  { d with tokens := t :: d.tokens, last := some c }

def twoStars (d : Draft) : Draft :=
  { d with tokens := .star :: .star :: d.tokens, last := some '*' }

/-- Two stars that are a segment of their own, after another one: the slash before them is part
of the new token. -/
def pushDirs (d : Draft) (t : Token) (c : Char) : Draft :=
  let tokens := match d.tokens with
    | .dirsBefore :: earlier => .dirsBefore :: earlier
    | .allBelow :: earlier => .allBelow :: earlier
    | _ :: earlier => t :: earlier
    | [] => [t]
  { d with tokens, last := some c }

def doubleStar (d : Draft) (rest : List Char) : Draft × List Char :=
  if d.tokens.isEmpty then
    match rest with
    | [] => (d.push .dirsBefore '*', [])
    | '/' :: rest => (d.push .dirsBefore '/', rest)
    | rest => (d.twoStars, rest)
  else if d.last = some '/' || (!d.choices.isEmpty && (d.last = some ',' || d.last = some '{')) then
    match rest with
    | [] => (d.pushDirs .allBelow '*', [])
    | '/' :: rest => (d.pushDirs .dirsBetween '/', rest)
    | c :: rest =>
      if !d.choices.isEmpty && (c = ',' || c = '}') then (d.pushDirs .allBelow '*', c :: rest)
      else (d.twoStars, c :: rest)
  else (d.twoStars, rest)

def openChoice (d : Draft) : Draft :=
  { d with tokens := [], choices := ⟨d.tokens, []⟩ :: d.choices, last := some '{' }

/-- The next branch of a choice. Outside of one a comma stands for itself. -/
def nextBranch (d : Draft) : Draft :=
  match d.choices with
  | [] => d.push (.literal ',') ','
  | c :: outer =>
    { d with
      tokens := []
      choices := ⟨c.before, d.tokens.reverse :: c.branches⟩ :: outer
      last := some ',' }

def closeChoice (d : Draft) : Except Error Draft :=
  match d.choices with
  | [] => .error .unopenedChoice
  | c :: outer =>
    .ok { d with
      tokens := .choice (d.tokens.reverse :: c.branches).reverse :: c.before
      choices := outer
      last := some '}' }

end Draft

/-- Read a pattern. With `lenient` a bracket that is never closed stands for itself, and so do
all after it. The fuel is more than the number of characters. -/
def readTokens (lenient : Bool) : Nat → Draft → List Char → Except Error Draft
  | 0, d, _ => .ok d
  | _ + 1, d, [] => .ok d
  | fuel + 1, d, '*' :: '*' :: rest =>
    let (d, rest) := d.doubleStar rest
    readTokens lenient fuel d rest
  | fuel + 1, d, c :: rest =>
    match c with
    | '?' => readTokens lenient fuel (d.push .oneByte c) rest
    | '*' => readTokens lenient fuel (d.push .star c) rest
    | '{' => readTokens lenient fuel d.openChoice rest
    | ',' => readTokens lenient fuel d.nextBranch rest
    | '}' => do readTokens lenient fuel (← d.closeChoice) rest
    | '\\' =>
      match rest with
      | [] => .error .danglingEscape
      | c :: rest => readTokens lenient fuel (d.push (.literal c) c) rest
    | '[' =>
      if d.plainBrackets then readTokens lenient fuel (d.push (.literal c) c) rest
      else
        let negated := rest.head? = some '!' || rest.head? = some '^'
        match readClass true false [] (if negated then rest.tail else rest) with
        | .closed ranges rest => readTokens lenient fuel (d.push (.oneOf negated ranges) ']') rest
        | .invalid first last => .error (.invalidRange first last)
        | .unclosed =>
          if lenient then
            readTokens lenient fuel { d.push (.literal c) c with plainBrackets := true } rest
          else .error .unclosedClass
    | c => readTokens lenient fuel (d.push (.literal c) c) rest

def parse (lenient : Bool) (pattern : List Char) : Except Error (List Token) := do
  let d ← readTokens lenient (pattern.length + 1) ⟨[], [], none, false⟩ pattern
  if d.choices.isEmpty then .ok d.tokens.reverse else .error .unclosedChoice

end LicenseHeader.Glob
