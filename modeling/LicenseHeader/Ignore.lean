import LicenseHeader.FileTree.Node
import LicenseHeader.Glob.Match
import LicenseHeader.Text

/-! Rules of ignore files, one on a line, and those of the directories from the root of a scan down
to an entry. -/
namespace LicenseHeader.Ignore

inductive Verdict
  | ignore
  | keep
deriving DecidableEq, Repr

structure Rule where
  pattern : List Glob.Token
  dirsOnly : Bool
  verdict : Verdict

/-- A line without the blanks at its end, unless a backslash holds the last of them. -/
def dropLineBlanks (line : List Char) : List Char :=
  if line.reverse.take 2 == [' ', '\\'] then line else Text.dropBlankEnd line

/-- A line without the marks at its start, whether an exclamation mark was one of them, and
whether a slash ties it to the directory. A backslash makes a mark part of the pattern. -/
def dropMarks (line : List Char) : Verdict × Bool × List Char :=
  match line with
  | '\\' :: '!' :: rest => (.ignore, false, '!' :: rest)
  | '\\' :: '#' :: rest => (.ignore, false, '#' :: rest)
  | '!' :: '/' :: rest => (.keep, true, rest)
  | '!' :: rest => (.keep, false, rest)
  | '/' :: rest => (.ignore, true, rest)
  | line => (.ignore, false, line)

def dropEndSlash (pattern : List Char) : Bool × List Char :=
  match pattern.reverse with
  | '/' :: '\\' :: rest => (true, rest.reverse)
  | '/' :: rest => (true, rest.reverse)
  | _ => (false, pattern)

/-- The pattern for whole relative paths. One without a slash may stand at any depth, and one
that ends in two stars is for what is inside a directory only. -/
def wholePattern (tied : Bool) (pattern : List Char) : List Char :=
  let deep :=
    if tied || pattern.contains '/' || pattern == ['*', '*'] then pattern
    else '*' :: '*' :: '/' :: pattern
  if deep.reverse.take 3 == ['*', '*', '/'] then deep ++ ['/', '*'] else deep

/-- The rule of a line. Comments, empty lines and lines that are no patterns have none. -/
def Rule.ofLine? (line : List Char) : Option Rule :=
  if line.head? = some '#' then none
  else
    let line := dropLineBlanks line
    if line.isEmpty then none
    else
      let (verdict, tied, rest) := dropMarks line
      let (dirsOnly, rest) := dropEndSlash rest
      match Glob.parse true (wholePattern tied rest) with
      | .ok pattern => some ⟨pattern, dirsOnly, verdict⟩
      | .error _ => none

def Rule.applies (r : Rule) (path : List UInt8) (isDir : Bool) : Bool :=
  (!r.dirsOnly || isDir) && Glob.matchesBytes r.pattern path

def decide? (rules : List Rule) (path : List UInt8) (isDir : Bool) : Option Verdict :=
  (rules.reverse.find? (·.applies path isDir)).map (·.verdict)

/-- The texts of consecutive lines, up to the first that is not well-formed UTF-8. A carriage
return before a line end belongs to it. -/
def textLines : List (List UInt8) → List (List Char)
  | [] => []
  | [last] => ((Text.decode? ⟨last.toArray⟩).map (·.toList)).toList
  | line :: rest =>
    let line := if line.getLast? = some 0x0D then line.dropLast else line
    match Text.decode? ⟨line.toArray⟩ with
    | some text => text.toList :: textLines rest
    | none => []

/-- The rules of a file. Byte order marks before its first line do not count. -/
def rulesOf (content : ByteArray) : List Rule :=
  match textLines (content.data.toList.splitOn 0x0A) with
  | [] => []
  | first :: rest =>
    (first.dropWhile (· == Text.byteOrderMark) :: rest).filterMap Rule.ofLine?

structure RulePair where
  license : List Rule
  version : List Rule

/-- The rules of a directory, and the names on the way from there to the directory that is
looked at. -/
structure Level where
  rules : RulePair
  below : List String

def Level.pathTo (l : Level) (name : String) : List UInt8 :=
  Text.bytes ("/".intercalate (l.below ++ [name]))

/-- What the rules of one kind say of an entry: the innermost directory that says something
decides. -/
def firstVerdict? (kind : RulePair → List Rule) (levels : List Level) (name : String)
    (isDir : Bool) : Option Verdict :=
  levels.findSome? fun l => decide? (kind l.rules) (l.pathTo name) isDir

/-- Whether an entry is ignored. What the rules for license headers say goes before all rules
for version control. -/
def isIgnored (levels : List Level) (name : String) (isDir : Bool) : Bool :=
  ((firstVerdict? (·.license) levels name isDir).or
    (firstVerdict? (·.version) levels name isDir)) == some .ignore

def descend (levels : List Level) (name : String) (rules : RulePair) : List Level :=
  ⟨rules, []⟩ :: levels.map fun l => { l with below := l.below ++ [name] }

end LicenseHeader.Ignore
