import LicenseHeader.Toml.Reader
import LicenseHeader.Toml.Table

/-! Numbers and booleans of TOML, each from the word that spells it. -/
namespace LicenseHeader.Toml

def digitIn? (base : Nat) (c : Char) : Option Nat :=
  let v :=
    if '0' ≤ c && c ≤ '9' then c.toNat - '0'.toNat
    else if 'a' ≤ c && c ≤ 'z' then c.toNat - 'a'.toNat + 10
    else if 'A' ≤ c && c ≤ 'Z' then c.toNat - 'A'.toNat + 10
    else base
  if v < base then some v else none

/-- The digits of a word in which single underscores may stand between two digits. -/
def digits? (base : Nat) (word : List Char) : Option (List Nat) := do
  let groups ← (word.splitOn '_').mapM (·.mapM (digitIn? base))
  if groups.all (!·.isEmpty) then some groups.flatten else none

def ofDigits (base : Nat) (digits : List Nat) : Nat :=
  digits.foldl (fun v d => base * v + d) 0

def plainDigits? (word : List Char) : Option (List Nat) := do
  let ds ← digits? 10 word
  if 1 < ds.length ∧ ds.head? = some 0 then none else some ds

def cutSign : List Char → Bool × List Char
  | '-' :: rest => (true, rest)
  | '+' :: rest => (false, rest)
  | word => (false, word)

def withSign (negative : Bool) (n : Nat) : Int :=
  if negative then -n else n

/-- An integer. Only decimal ones may have a sign. -/
def integer? : List Char → Option Int
  | '0' :: 'x' :: word => (digits? 16 word).map fun ds => ofDigits 16 ds
  | '0' :: 'o' :: word => (digits? 8 word).map fun ds => ofDigits 8 ds
  | '0' :: 'b' :: word => (digits? 2 word).map fun ds => ofDigits 2 ds
  | word =>
    let (negative, word) := cutSign word
    (plainDigits? word).map fun ds => withSign negative (ofDigits 10 ds)

def exponent? : List Char → Option Int
  | [] => some 0
  | _ :: word =>
    let (negative, word) := cutSign word
    (digits? 10 word).map fun ds => withSign negative (ofDigits 10 ds)

/-- A float: digits with a fraction, an exponent or both, or one of two names. The outer option
says whether the word spells a float, the inner one whether that is finite. -/
def float? (word : List Char) : Option (Option Decimal) := do
  let word := (cutSign word).2
  if word == "inf".toList || word == "nan".toList then return none
  let isExponent := fun c => c == 'e' || c == 'E'
  let mantissa := word.takeWhile (!isExponent ·)
  let exponent ← exponent? (word.dropWhile (!isExponent ·))
  let whole ← plainDigits? (mantissa.takeWhile (· != '.'))
  match mantissa.dropWhile (· != '.') with
  | [] =>
    if mantissa.length = word.length then none
    else return some ⟨ofDigits 10 whole, exponent⟩
  | _ :: fraction =>
    let parts ← digits? 10 fraction
    return some ⟨ofDigits 10 (whole ++ parts), exponent - parts.length⟩

def boolean? (word : List Char) : Option Bool :=
  if word == "true".toList then some true
  else if word == "false".toList then some false
  else none

/-- Whether a decimal rounds to a finite double: it is below the midpoint of the greatest
double and the power of two after it. -/
def Decimal.fitsDouble (d : Decimal) : Bool :=
  let limit := Nat.pow 2 1024 - Nat.pow 2 970
  let places := (Nat.toDigits 10 d.digits).length
  if d.digits = 0 ∨ places + d.exponent ≤ 308 then true
  else if 310 < places + d.exponent then false
  else if 0 ≤ d.exponent then d.digits * Nat.pow 10 d.exponent.toNat < limit
  else d.digits < limit * Nat.pow 10 (-d.exponent).toNat

end LicenseHeader.Toml
