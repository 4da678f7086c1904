import LicenseHeader.Toml.Number

/-! Dates and times of TOML. -/
namespace LicenseHeader.Toml

def fixed? (n : Nat) (word : List Char) : Option (Nat × List Char) := do
  let ds ← (word.take n).mapM (digitIn? 10)
  if ds.length = n then some (ofDigits 10 ds, word.drop n) else none

def daysIn (year month : Nat) : Nat :=
  match month with
  | 2 => if year % 4 = 0 ∧ (year % 100 ≠ 0 ∨ year % 400 = 0) then 29 else 28
  | 4 | 6 | 9 | 11 => 30
  | 1 | 3 | 5 | 7 | 8 | 10 | 12 => 31
  | _ => 0

def after? (c : Char) : List Char → Option (List Char)
  | d :: rest => if d = c then some rest else none
  | [] => none

def afterDate? (word : List Char) : Option (List Char) := do
  let (year, word) ← fixed? 4 word
  let (month, word) ← fixed? 2 (← after? '-' word)
  let (day, word) ← fixed? 2 (← after? '-' word)
  if 1 ≤ day ∧ day ≤ daysIn year month then some word else none

def afterFraction? : List Char → Option (List Char)
  | '.' :: c :: rest =>
    if c.isDigit then some (rest.dropWhile Char.isDigit) else none
  | '.' :: [] => none
  | word => some word

/-- The rest after a time. Its seconds may be left out, and so may their fraction. -/
def afterTime? (word : List Char) : Option (List Char) := do
  let (hour, word) ← fixed? 2 word
  let (minute, word) ← fixed? 2 (← after? ':' word)
  if 23 < hour ∨ 59 < minute then none
  match word with
  | ':' :: word =>
    let (second, word) ← fixed? 2 word
    if 60 < second then none else afterFraction? word
  | word => some word

def isOffset : List Char → Bool
  | [] => true
  | ['Z'] => true
  | ['z'] => true
  | c :: word => (c == '+' || c == '-') && (do
    let (hour, word) ← fixed? 2 word
    let (minute, word) ← fixed? 2 (← after? ':' word)
    if 23 < hour ∨ 59 < minute then none else some word) == some []

def isDate (word : List Char) : Bool :=
  afterDate? word == some []

/-- Whether a word is a date, a time, or both, which may have an offset. -/
def isMoment (word : List Char) : Bool :=
  match afterDate? word with
  | none => afterTime? word == some []
  | some [] => true
  | some (c :: time) => (c == 'T' || c == 't' || c == ' ') && (afterTime? time).any isOffset

end LicenseHeader.Toml
