import LicenseHeader.Glob.Parser
import LicenseHeader.Text

/-! Matching the bytes of a name or a relative path against a pattern. -/
namespace LicenseHeader.Glob

def slash : UInt8 := 0x2F

def afterBytes? : List UInt8 → List UInt8 → Option (List UInt8)
  | [], s => some s
  | b :: bs, c :: s => if b = c then afterBytes? bs s else none
  | _ :: _, [] => none

/-- Whether `next` takes what is left after some bytes without a slash. -/
def afterStar (next : List UInt8 → Bool) : List UInt8 → Bool
  | [] => next []
  | b :: s => next (b :: s) || (b != slash && afterStar next s)

def afterSlash (next : List UInt8 → Bool) : List UInt8 → Bool
  | [] => false
  | b :: s => (b == slash && next s) || afterSlash next s

def afterAny (next : List UInt8 → Bool) : List UInt8 → Bool
  | [] => next []
  | b :: s => next (b :: s) || afterAny next s

/-- Whether a byte belongs to a range of characters. Characters of several bytes count as those
bytes, and the range lies between the last byte of the first and the first byte of the last. -/
def inRange (b : UInt8) (r : Char × Char) : Bool :=
  let first := String.utf8EncodeChar r.1
  let last := String.utf8EncodeChar r.2
  if r.1 = r.2 then first.contains b
  else
    first.dropLast.contains b || last.tail.contains b ||
      (first.getLast?.any (· ≤ b) && last.head?.any (b ≤ ·))

mutual

/-- Whether a token always stands for nothing: a choice of such branches only. -/
def Token.isVoid : Token → Bool
  | .choice branches => allVoid branches
  | _ => false
termination_by structural t => t

def isVoidBranch : List Token → Bool
  | [] => true
  | t :: rest => t.isVoid && isVoidBranch rest
termination_by structural ts => ts

def allVoid : List (List Token) → Bool
  | [] => true
  | b :: rest => isVoidBranch b && allVoid rest
termination_by structural bs => bs

end

mutual

/-- Whether a text is one that a token matches, followed by one that `next` takes. -/
def Token.run (next : List UInt8 → Bool) (s : List UInt8) : Token → Bool
  | .literal c => (afterBytes? (String.utf8EncodeChar c) s).any next
  | .oneByte =>
    match s with
    | [] => false
    | b :: rest => b != slash && next rest
  | .oneOf negated ranges =>
    match s with
    | [] => false
    | b :: rest => (ranges.any (inRange b) != negated) && next rest
  | .star => afterStar next s
  | .dirsBefore => next s || afterSlash next s
  | .allBelow =>
    match s with
    | [] => false
    | b :: rest => b == slash && afterAny next rest
  | .dirsBetween =>
    match s with
    | [] => false
    | b :: rest => b == slash && (next rest || afterSlash next rest)
  | .choice branches => if allVoid branches then next s else runSome next s branches
termination_by structural t => t

def runAll (next : List UInt8 → Bool) (s : List UInt8) : List Token → Bool
  | [] => next s
  | t :: rest => t.run (fun s => runAll next s rest) s
termination_by structural ts => ts

/-- The same for the branches of a choice. Those that stand for nothing do not count. -/
def runSome (next : List UInt8 → Bool) (s : List UInt8) : List (List Token) → Bool
  | [] => false
  | b :: rest => (!isVoidBranch b && runAll next s b) || runSome next s rest
termination_by structural bs => bs

end

def matchesBytes (pattern : List Token) (s : List UInt8) : Bool :=
  match pattern with
  | [.dirsBefore] => true
  | tokens => runAll List.isEmpty s tokens

end LicenseHeader.Glob
