import LicenseHeader.Config.Basic
import LicenseHeader.Toml.Document

/-! Configurations written in TOML. -/
namespace LicenseHeader.Config

open Toml (Value)

def tableName : String := "comment-styles"

mutual

/-- Whether a value that is not asked for can at least be represented: its integers in 128 bits
and its decimals as doubles. -/
def isRepresentable : Value → Bool
  | .integer n => -(2 ^ 127) ≤ n && n < 2 ^ 128
  | .float (some d) => d.fitsDouble
  | .array _ items => areRepresentable items
  | .table _ entries => entriesRepresentable entries
  | _ => true
termination_by structural v => v

def areRepresentable : List Value → Bool
  | [] => true
  | v :: rest => isRepresentable v && areRepresentable rest
termination_by structural vs => vs

def entriesRepresentable : List (String × Value) → Bool
  | [] => true
  | (_, v) :: rest => isRepresentable v && entriesRepresentable rest
termination_by structural es => es

end

def setField (e : Option String × Option String × Option String) (key : String) (v : Value) :
    Option (Option String × Option String × Option String) :=
  match key, v with
  | "top", .string s => some (some s, e.2)
  | "middle", .string s => some (e.1, some s, e.2.2)
  | "bottom", .string s => some (e.1, e.2.1, some s)
  | key, v =>
    if key ∈ ["top", "middle", "bottom"] then none
    else if isRepresentable v then some e else none

/-- A style from a table of its fields, or from an array of their values in order. Only
`middle` has to be there. -/
def readEntry : Value → Option StyleEntry
  | .table _ fields => do
    let (top, middle, bottom) ← fields.foldlM (fun e (k, v) => setField e k v) (none, none, none)
    return ⟨top.getD "", ← middle, bottom.getD ""⟩
  | .array _ (.string top :: .string middle :: []) => some ⟨top, middle, ""⟩
  | .array _ (.string top :: .string middle :: .string bottom :: _) =>
    some ⟨top, middle, bottom⟩
  | _ => none

def styles? : Value → Option (List (String × StyleEntry))
  | .table _ entries => do
    let rest := entries.filter (·.1 != tableName)
    if !entriesRepresentable rest then none
    match entries.lookup tableName with
    | none => return []
    | some (.table _ styles) => styles.mapM fun (k, v) => (readEntry v).map (k, ·)
    | some _ => none
  | _ => none

/-- The configuration of a text, if that is a document and its styles have the right form. A
table has each key once. -/
def ofToml? (text : String) : Option Config := do
  let styles ← styles? (← Toml.parse? text)
  if h : (styles.map (·.1)).Nodup then some ⟨styles, h⟩ else none

end LicenseHeader.Config
