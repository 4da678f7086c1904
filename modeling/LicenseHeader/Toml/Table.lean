/-! TOML values, and tables as lines add to them: dotted keys, table headers and headers of arrays of
tables. -/
namespace LicenseHeader.Toml

/-- A finite decimal number without its sign: digits times a power of ten. -/
structure Decimal where
  digits : Nat
  exponent : Int
deriving DecidableEq, Repr

/-- How a table came to be, which decides whether later lines may add to it: by its own header,
by the header of a table below it, by a dotted key, or inline. -/
inductive Origin
  | header
  | implied
  | dotted
  | inline
deriving DecidableEq, Repr

/-- A value. A float without a decimal is infinite or not a number. An array of tables is one
whose items have headers. -/
inductive Value
  | string (s : String)
  | integer (n : Int)
  | float (value : Option Decimal)
  | boolean (b : Bool)
  | moment (text : String)
  | array (ofTables : Bool) (items : List Value)
  | table (origin : Origin) (entries : List (String × Value))
deriving Repr, Inhabited

abbrev Entries := List (String × Value)

def alterKey (key : String) (f : Option Value → Option Value) : Entries → Option Entries
  | [] => (f none).map fun v => [(key, v)]
  | (k, v) :: rest =>
    if k = key then (f (some v)).map fun v => (k, v) :: rest
    else (alterKey key f rest).map ((k, v) :: ·)

def alterLast (f : Value → Option Value) : List Value → Option (List Value)
  | [] => none
  | [v] => (f v).map fun v => [v]
  | v :: rest => (alterLast f rest).map (v :: ·)

namespace Value

def addKey (key : String) (v : Value) : Value → Option Value
  | table origin entries =>
    (alterKey key (fun | none => some v | some _ => none) entries).map (table origin)
  | _ => none

/-- Give a dotted key its value, in a table that another key of the same dotted key named. The
tables on the way are made if they are not there. Only a table that dotted keys made may get
the key itself, and a table with a header or an inline one may not even be passed. -/
def addBelow (key : String) (v : Value) : List String → Value → Option Value
  | [], table .dotted entries => addKey key v (table .dotted entries)
  | k :: path, table origin entries =>
    (alterKey k (fun
      | none => addBelow key v path (table .dotted [])
      | some (array true items) => (alterLast (addBelow key v path) items).map (array true)
      | some (table .dotted es) => addBelow key v path (table .dotted es)
      | some (table .implied es) => addBelow key v path (table .implied es)
      | some _ => none) entries).map (table origin)
  | _, _ => none

def add (t : Value) (path : List String) (key : String) (v : Value) : Option Value :=
  if path.isEmpty then addKey key v t else addBelow key v path t

/-- Change what a header names. The tables on the way are made if they are not there, and an
array of tables stands for its last one. -/
def alterHeader (key : String) (f : Option Value → Option Value) :
    List String → Value → Option Value
  | [], table origin entries => (alterKey key f entries).map (table origin)
  | k :: path, table origin entries =>
    (alterKey k (fun
      | none => alterHeader key f path (table .implied [])
      | some (array true items) => (alterLast (alterHeader key f path) items).map (array true)
      | some (table .inline _) => none
      | some (table o es) => alterHeader key f path (table o es)
      | some _ => none) entries).map (table origin)
  | _, _ => none

def openTable : Option Value → Option Value
  | none => some (table .header [])
  | some (table .implied entries) => some (table .header entries)
  | some _ => none

def openItem : Option Value → Option Value
  | none => some (array true [table .header []])
  | some (array true items) => some (array true (items ++ [table .header []]))
  | some _ => none

def addUnder (path : List String) (key : String) (v : Value) : Option Value → Option Value
  | some (array true items) => (alterLast (add · path key v) items).map (array true)
  | some t => t.add path key v
  | none => none

end Value

end LicenseHeader.Toml
