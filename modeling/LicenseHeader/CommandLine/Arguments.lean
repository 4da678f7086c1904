import LicenseHeader.CommandLine.Option
import LicenseHeader.Path.Basic

/-! Command lines: what is asked for, and what is wrong with one that cannot be read. -/
namespace LicenseHeader.CommandLine

inductive ColorMode
  | auto
  | never
  | always
deriving DecidableEq, Repr

def ColorMode.ofName? : String → Option ColorMode
  | "auto" => some auto
  | "never" => some never
  | "always" => some always
  | _ => none

structure Arguments where
  root : Path
  license : Path
  write : Bool
  config : Option Path
  noConfig : Bool
  verbosity : Nat
  quiet : Bool
  colors : ColorMode
deriving DecidableEq, Repr

inductive UsageError
  | unexpected (argument : String)
  | valueMissing (option : Opt)
  | valueUnknown (value : String) (option : Opt)
  | valueUnneeded (value : String) (option : Opt)
  | repeated (option : Opt)
  | conflict (option rival : Opt)
  | licenseMissing
deriving DecidableEq, Repr

def UsageError.message : UsageError → String
  | unexpected argument => "unexpected argument '" ++ argument ++ "' found"
  | valueMissing o => "a value is required for '" ++ o.text ++ "' but none was supplied"
  | valueUnknown value o => "invalid value '" ++ value ++ "' for '" ++ o.text ++ "'"
  | valueUnneeded value o =>
    "unexpected value '" ++ value ++ "' for '" ++ o.text ++ "' found; no more were expected"
  | repeated o => "the argument '" ++ o.text ++ "' cannot be used multiple times"
  | conflict o rival =>
    "the argument '" ++ o.text ++ "' cannot be used with '" ++ rival.text ++ "'"
  | licenseMissing =>
    "the following required arguments were not provided:\n  " ++ Opt.license.text

inductive Stop
  | error (e : UsageError)
  | help (long : Bool)
  | version
deriving DecidableEq, Repr

/-- What was read so far: the options in the order in which they took effect, their values, and
an option that still waits for its value, or has it and has not yet taken effect. -/
structure Draft where
  given : List Opt
  waiting : Option (Opt × Option String)
  root : Path
  license : Option Path
  config : Option Path
  verbosity : Nat
  colors : ColorMode

namespace Draft

def empty : Draft := ⟨[], none, ⟨"."⟩, none, none, 0, .auto⟩

/-- Note that an option took effect. Only the one for verbosity may do so again. -/
def note (d : Draft) (o : Opt) : Except Stop Draft :=
  if o = .verbose then .ok { d with given := d.given.erase o ++ [o] }
  else if o ∈ d.given then .error (.error (.repeated o))
  else .ok { d with given := d.given ++ [o] }

def pathValue (o : Opt) (value : String) : Except Stop Path :=
  if value == "" then .error (.error (.valueMissing o)) else .ok ⟨value⟩

def colorValue (o : Opt) (value : String) : Except Stop ColorMode :=
  match ColorMode.ofName? value with
  | some mode => .ok mode
  | none =>
    .error (.error (if value == "" then .valueMissing o else .valueUnknown value o))

/-- Let an option take effect. `long` says that it was written with two dashes. -/
def apply (d : Draft) (o : Opt) (long : Bool) (value : Option String) : Except Stop Draft := do
  match o, value with
  | .help, _ => .error (.help long)
  | .version, _ => .error .version
  | .verbose, _ => return { ← d.note o with verbosity := d.verbosity + 1 }
  | .colors, value => return { ← d.note o with colors := ← colorValue o (value.getD "always") }
  | .root, some v => return { ← d.note o with root := ← pathValue o v }
  | .license, some v => return { ← d.note o with license := ← pathValue o v }
  | .config, some v => return { ← d.note o with config := ← pathValue o v }
  | o, none => if o.arity = .always then .error (.error (.valueMissing o)) else d.note o
  | o, some _ => d.note o

def settle (d : Draft) : Except Stop Draft :=
  match d.waiting with
  | none => .ok d
  | some (o, value) => { d with waiting := none }.apply o true value

def flag (d : Draft) (o : Opt) (long : Bool) : Except Stop Draft := do
  (← d.settle).apply o long none

def attached (d : Draft) (o : Opt) (value : String) : Except Stop Draft := do
  (← d.settle).apply o true (some value)

def await (d : Draft) (o : Opt) : Except Stop Draft := do
  return { ← d.settle with waiting := some (o, none) }

/-- An argument with two dashes: a name, and perhaps a value after an equals sign. -/
def readLong (d : Draft) (argument : List Char) : Except Stop Draft :=
  let name := String.ofList (argument.takeWhile (· != '='))
  match Opt.ofLong? name, argument.dropWhile (· != '=') with
  | none, _ => .error (.error (.unexpected ("--" ++ name)))
  | some o, [] => if o.arity = .never then d.flag o true else d.await o
  | some o, _ :: value =>
    if o.arity = .never then .error (.error (.valueUnneeded (String.ofList value) o))
    else d.attached o (String.ofList value)

/-- An argument with one dash: letters, of which the first that has a value has the rest for
it. -/
def readShort (d : Draft) : List Char → Except Stop Draft
  | [] => .ok d
  | c :: rest =>
    match Opt.ofShort? c with
    | none => .error (.error (.unexpected ("-" ++ c.toString)))
    | some o =>
      if o.arity = .never then
        match d.flag o false with
        | .error e => .error e
        | .ok d => readShort d rest
      else
        match rest with
        | [] => d.await o
        | '=' :: value => d.attached o (String.ofList value)
        | value => d.attached o (String.ofList value)

def rivals? (d : Draft) : Option (Opt × Opt) :=
  d.given.findSome? fun o => (o.rival?.filter (· ∈ d.given)).map (o, ·)

def finish (d : Draft) : Except Stop Arguments := do
  let d ← d.settle
  match d.rivals?, d.license with
  | some (o, rival), _ => .error (.error (.conflict o rival))
  | none, none => .error (.error .licenseMissing)
  | none, some license =>
    return {
      root := d.root
      license
      write := d.given.contains .write
      config := d.config
      noConfig := d.given.contains .noConfig
      verbosity := d.verbosity
      quiet := d.given.contains .quiet
      colors := d.colors }

/-- Read the arguments one after another. After two dashes alone there may be no more. -/
def read (d : Draft) : List String → Except Stop Arguments
  | [] => d.finish
  | argument :: rest =>
    match argument.toList with
    | ['-', '-'] =>
      match rest with
      | [] => d.finish
      | extra :: _ => .error (.error (.unexpected extra))
    | '-' :: '-' :: cs =>
      match d.readLong cs with
      | .error e => .error e
      | .ok d => read d rest
    | '-' :: c :: cs =>
      match d.readShort (c :: cs) with
      | .error e => .error e
      | .ok d => read d rest
    | _ =>
      match d.waiting with
      | some (o, none) => read { d with waiting := some (o, some argument) } rest
      | _ => .error (.error (.unexpected argument))

end Draft

def parse (arguments : List String) : Except Stop Arguments :=
  Draft.empty.read arguments

end LicenseHeader.CommandLine
