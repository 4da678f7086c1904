import LicenseHeader.Registry

/-! Configured comment styles, what makes one invalid, and the registry they make. -/
namespace LicenseHeader

/-- A configured style. With `top` and `bottom` empty it is a line style of token `middle`. -/
structure StyleEntry where
  top : String
  middle : String
  bottom : String
deriving DecidableEq, Repr

inductive Flaw
  | emptyExtension
  | leadingDot
  | innerDot
  | emptyMiddle
  | unpaired
deriving DecidableEq, Repr

def Flaw.message : Flaw → String
  | emptyExtension => "extension cannot be empty"
  | leadingDot => "extension should not include leading dot"
  | innerDot => "only the final extension segment is matched"
  | emptyMiddle => "middle field cannot be empty"
  | unpaired => "top and bottom must both be set for block comments"

namespace StyleEntry

def present? (s : String) : Option String :=
  if s == "" then none else some s

def style (e : StyleEntry) : Style :=
  .ofTokens (present? e.top) e.middle (present? e.bottom)

def flaw? (extension : String) (e : StyleEntry) : Option Flaw :=
  if extension == "" then some .emptyExtension
  else if extension.toList.head? == some '.' then some .leadingDot
  else if extension.toList.contains '.' then some .innerDot
  else if e.middle == "" then some .emptyMiddle
  else if (e.top == "") != (e.bottom == "") then some .unpaired
  else none

end StyleEntry

structure Config where
  styles : List (String × StyleEntry)
  distinct : (styles.map (·.1)).Nodup

namespace Config

def flaw? (c : Config) : Option (String × Flaw) :=
  c.styles.findSome? fun (extension, entry) => (entry.flaw? extension).map (extension, ·)

def isEmpty (c : Config) : Bool :=
  c.styles.isEmpty

def size (c : Config) : Nat :=
  c.styles.length

/-- The builtin registry with the configured styles instead of or besides its own. -/
def registry (c : Config) : Registry :=
  .insertAll .builtin (c.styles.map fun (extension, entry) => (extension, entry.style))

end Config
end LicenseHeader
