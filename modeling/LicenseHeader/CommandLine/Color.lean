import LicenseHeader.CommandLine.Arguments

/-! Colored output: when it is wanted, and how it is written. -/
namespace LicenseHeader.CommandLine

abbrev Environment := String → Option String

inductive Color
  | red
  | green
  | yellow
  | cyan
  | dim
deriving DecidableEq, Repr

namespace Color

def codes : Color → String × String
  | red => ("31", "39")
  | green => ("32", "39")
  | yellow => ("33", "39")
  | cyan => ("36", "39")
  | dim => ("2", "0")

def paint (colored : Bool) (c : Color) (text : String) : String :=
  if colored then "\x1b[" ++ c.codes.1 ++ "m" ++ text ++ "\x1b[" ++ c.codes.2 ++ "m" else text

end Color

def asksForColor (value : String) : Bool :=
  let digits := match value.toList with
    | '+' :: rest => rest
    | cs => cs
  value != "false" && (digits.isEmpty || digits.any (· != '0'))

def colorVariable : String := "FORCE_COLOR"

def plainColorVariable : String := "CLICOLOR_FORCE"

/-- Whether the environment forces colors. One variable for that goes before the other, which
only "0" turns off. -/
def forcesColor (env : Environment) : Bool :=
  match env colorVariable, env plainColorVariable with
  | some value, _ => asksForColor value
  | none, some value => value != "0"
  | none, none => false

/-- Whether output is colored. It does not go to a terminal, so that by default only the
environment can ask for colors. -/
def ColorMode.isColored (mode : ColorMode) (env : Environment) : Bool :=
  match mode with
  | always => true
  | never => false
  | auto => forcesColor env

end LicenseHeader.CommandLine
