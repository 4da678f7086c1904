/-! The options of the command line: their names, and how usage and errors write them. -/
namespace LicenseHeader.CommandLine

inductive Opt
  | root
  | license
  | write
  | config
  | noConfig
  | verbose
  | quiet
  | colors
  | help
  | version
deriving DecidableEq, Repr

inductive Arity
  | never
  | always
  | maybe
deriving DecidableEq, Repr

namespace Opt

def all : List Opt :=
  [root, license, write, config, noConfig, verbose, quiet, colors, help, version]

def long : Opt → String
  | root => "root"
  | license => "license"
  | write => "write"
  | config => "config"
  | noConfig => "no-config"
  | verbose => "verbose"
  | quiet => "quiet"
  | colors => "colors"
  | help => "help"
  | version => "version"

def short? : Opt → Option Char
  | root => some 'r'
  | license => some 'l'
  | write => some 'w'
  | verbose => some 'v'
  | quiet => some 'q'
  | help => some 'h'
  | version => some 'V'
  | config => none
  | noConfig => none
  | colors => none

def arity : Opt → Arity
  | root => .always
  | license => .always
  | config => .always
  | colors => .maybe
  | _ => .never

def valueText : Opt → String
  | root => " <DIR>"
  | license => " <FILE>"
  | config => " <FILE>"
  | colors => " [<WHEN>]"
  | verbose => "..."
  | _ => ""

def text (o : Opt) : String :=
  "--" ++ o.long ++ o.valueText

def ofLong? (name : String) : Option Opt :=
  all.find? (·.long == name)

def ofShort? (letter : Char) : Option Opt :=
  all.find? (·.short? == some letter)

/-- The option that may not be given together with this one. -/
def rival? : Opt → Option Opt
  | quiet => some verbose
  | verbose => some quiet
  | noConfig => some config
  | config => some noConfig
  | _ => none

end Opt
end LicenseHeader.CommandLine
