import LicenseHeader.CommandLine.Color
import LicenseHeader.Path.Relative
import LicenseHeader.Scan.Run

/-! The lines in which a run tells its user what it does and finds. -/
namespace LicenseHeader.CommandLine

inductive Detail
  | quiet
  | normal
  | verbose
deriving DecidableEq, Repr

def Arguments.detail (a : Arguments) : Detail :=
  if 0 < a.verbosity then .verbose else if a.quiet then .quiet else .normal

/-- A list of names of which only the first are shown: how many there are, those shown, and
how many are not. -/
structure Listing where
  total : Nat
  shown : List String
  hidden : Nat
deriving DecidableEq, Repr

namespace Listing

def limit : Nat := 20

def bound (all : Bool) (count : Nat) : Nat :=
  if all then count else limit

/-- The difference of two counts, which cannot be below zero. -/
def difference? (m n : Nat) : Option Nat :=
  if n ≤ m then some (m - n) else none

/-- How many of `count` names a listing leaves out. The difference is only taken if it may show
fewer names than there are. -/
def leftOut? (all : Bool) (count : Nat) : Option Nat :=
  if !all && decide (bound all count < count) then difference? count (bound all count) else some 0

theorem leftOut?_eq_sub (all : Bool) (count : Nat) :
    leftOut? all count = some (count - bound all count) := by
  cases all with
  | true => simp [leftOut?, bound]
  | false =>
    rw [leftOut?]
    by_cases h : bound false count < count
    · rw [if_pos (by simpa using h), difference?, if_pos (Nat.le_of_lt h)]
    · rw [if_neg (by simpa using h), Nat.sub_eq_zero_of_le (Nat.le_of_not_lt h)]

theorem isSome_leftOut? (all : Bool) (count : Nat) : (leftOut? all count).isSome = true := by
  rw [leftOut?_eq_sub, Option.isSome_some]

def ofNames (all : Bool) (names : List String) : Listing where
  total := names.length
  shown := names.take (bound all names.length)
  hidden := (leftOut? all names.length).get (isSome_leftOut? all names.length)

end Listing

structure Look where
  detail : Detail
  colored : Bool
  write : Bool

namespace Look

def fileWord (n : Nat) : String :=
  if n = 1 then "file" else "files"

def started (l : Look) (root : Path) : List String :=
  if l.detail = .quiet then []
  else [(if l.write then "Processing " else "Checking ") ++ root.text ++ "..."]

def compliant (l : Look) (scanned : Nat) : List String :=
  if l.detail = .quiet then []
  else
    ["", Color.green.paint l.colored "✓" ++ " All " ++
      Color.cyan.paint l.colored (toString scanned) ++ " " ++ fileWord scanned ++
      " have license headers."]

def heading (l : Look) (n : Nat) : String :=
  if l.write then
    Color.green.paint l.colored "✓" ++ " Added license to " ++ toString n ++ " " ++ fileWord n ++
      " that had none:"
  else
    Color.red.paint l.colored "✗" ++ " " ++ toString n ++ " " ++ fileWord n ++
      " missing license headers:"

def remainder (l : Look) (n : Nat) : List String :=
  if n = 0 then []
  else
    ["  " ++ Color.dim.paint l.colored "" ++ " ... and " ++ toString n ++
      " more (use -v to see all)"]

/-- What is said if files lacked their header: with little detail only their names, all of
them. -/
def violations (l : Look) (names : List String) : List String :=
  if l.detail = .quiet then names
  else
    let listing := Listing.ofNames (l.detail = .verbose) names
    let hint :=
      if l.write then []
      else ["", Color.yellow.paint l.colored "Run with --write to add missing headers."]
    "" :: l.heading listing.total :: listing.shown.map ("  " ++ ·) ++ l.remainder listing.hidden ++
      hint

/-- What is said after a scan: the files that lacked their header, by their names as seen from
the root, or that there are none. -/
def finished (l : Look) (root : Path) (r : Scan.Report) : List String :=
  if r.violations.isEmpty then l.compliant r.summary.scanned
  else l.violations (r.violations.map (·.relativeTo root))

end Look
end LicenseHeader.CommandLine
