/-! Log filters: which log lines a run writes, by level and by part of the program. -/
namespace LicenseHeader.CommandLine

inductive LogLevel
  | off
  | error
  | warn
  | info
  | debug
  | trace
deriving DecidableEq, Repr

namespace LogLevel

def rank : LogLevel → Nat
  | off => 0
  | error => 1
  | warn => 2
  | info => 3
  | debug => 4
  | trace => 5

def all : List LogLevel := [off, error, warn, info, debug, trace]

def name : LogLevel → String
  | off => "off"
  | error => "error"
  | warn => "warn"
  | info => "info"
  | debug => "debug"
  | trace => "trace"

def ofText? (text : String) : Option LogLevel :=
  let digits := match text.toList with
    | '+' :: rest => rest
    | cs => cs
  if !digits.isEmpty && digits.all Char.isDigit then
    let n := digits.foldl (fun n c => 10 * n + (c.toNat - '0'.toNat)) 0
    all.find? (·.rank == n)
  else all.find? (·.name == text.map Char.toLower)

def ofOptions (quiet : Bool) (verbosity : Nat) : LogLevel :=
  if quiet then error
  else
    match verbosity with
    | 0 => warn
    | 1 => info
    | 2 => debug
    | _ => trace

end LogLevel

/-- What a filter says about part of a program: the start of the names of its parts, perhaps a
span or fields that a line has to have, and the level. -/
structure Directive where
  target : Option String
  span : Option String
  fields : List String
  level : LogLevel
deriving DecidableEq, Repr

namespace Directive

/-- The level after an equals sign; an empty text asks for everything. -/
def levelAfter? (text : List Char) : Option LogLevel :=
  if text.isEmpty then some .trace else LogLevel.ofText? (String.ofList text)

def span? (text : List Char) : Option (Option String × List String) :=
  match text.dropWhile (· != '{') with
  | [] => some (some (String.ofList text), [])
  | _ :: rest =>
    match rest.reverse with
    | '}' :: fields =>
      let names := (fields.reverse.splitOn ',').map String.ofList
      let span := text.takeWhile (· != '{')
      if names.contains "" then none
      else some (if span.isEmpty then none else some (String.ofList span), names)
    | _ => none

def isStart (c : Char) : Bool :=
  c.isAlphanum || c == '-' || c == ':' || c == '_' || 0x80 ≤ c.toNat

/-- The directive of a text. A single word is a level if it can be one, and a target
otherwise. -/
def ofText? (text : List Char) : Option Directive := do
  let target := text.takeWhile fun c => c != '=' && c != '['
  if !(target.head?.any isStart) && text.head? != some '[' then none
  let named := if target.isEmpty then none else some (String.ofList target)
  match text.dropWhile fun c => c != '=' && c != '[' with
  | [] =>
    match LogLevel.ofText? (String.ofList target) with
    | some level => return ⟨none, none, [], level⟩
    | none => return ⟨named, none, [], .trace⟩
  | '=' :: level => return ⟨named, none, [], ← levelAfter? level⟩
  | _ :: rest =>
    let (span, fields) ← span? (rest.takeWhile (· != ']'))
    match rest.dropWhile (· != ']') with
    | [_] => return ⟨named, span, fields, .trace⟩
    | _ :: '=' :: level => return ⟨named, span, fields, ← levelAfter? level⟩
    | _ => none

def isPlain (d : Directive) : Bool :=
  d.span.isNone && d.fields.all fun f => !f.toList.contains '='

/-- Whether a directive is about the lines of a part of the program, which have a message and
no other field. -/
def covers (d : Directive) (part : String) : Bool :=
  d.isPlain && d.fields.all (· == "message") &&
    d.target.all fun t => t.toList.isPrefixOf part.toList

def outranks (d e : Directive) : Bool :=
  let size (d : Directive) := d.target.elim 0 (·.utf8ByteSize + 1)
  size e < size d || (size d == size e && e.fields.length < d.fields.length)

end Directive

abbrev LogFilter := List Directive

namespace LogFilter

def ofText? (text : String) : Option LogFilter :=
  ((text.toList.splitOn ',').filter (!·.isEmpty)).mapM Directive.ofText?

/-- The most specific directive for a part of the program; of two like it the later one. -/
def best? (f : LogFilter) (part : String) : Option Directive :=
  (f.filter (·.covers part)).foldl (fun best d =>
    match best with
    | none => some d
    | some b => if b.outranks d then some b else some d) none

/-- Whether lines of a level are written for a part of the program. Without any directive only
errors are. -/
def admits (f : LogFilter) (part : String) (level : LogLevel) : Bool :=
  match f.best? part with
  | some d => level.rank ≤ d.level.rank
  | none => f.isEmpty && level.rank ≤ LogLevel.error.rank

/-- The filter of a run: that of the environment, if it can be read, or the level that the
options ask for. -/
def choose (environment : Option String) (default : LogLevel) : LogFilter :=
  (environment.bind ofText?).getD [⟨none, none, [], default⟩]

end LogFilter
end LicenseHeader.CommandLine
