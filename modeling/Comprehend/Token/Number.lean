import Comprehend.Number.Int64
import Comprehend.Token.Basic

/-! Numbers in the source. An underscore may stand between digits and does not count. -/
namespace Comprehend.Token

/-- The digits of a number, and the underscores among them. -/
def isDigitRun (c : Char) : Bool :=
  c.isDigit || c == '_'

def isHexRun (c : Char) : Bool :=
  Text.isHexDigit c || c == '_'

def withoutUnderscores (cs : List Char) : List Char :=
  cs.filter (· != '_')

def digitValue (c : Char) : Nat :=
  if c.isDigit then c.toNat - '0'.toNat
  else if 'a' ≤ c ∧ c ≤ 'f' then c.toNat - 'a'.toNat + 10
  else c.toNat - 'A'.toNat + 10

/-- The value of a run of digits in the given base. -/
def digitsValue (base : Nat) (cs : List Char) : Nat :=
  cs.foldl (fun n c => n * base + digitValue c) 0

/-- How many characters a fraction takes, at the point: none unless a digit follows the point. -/
def fractionWidth : List Char → Nat
  | '.' :: d :: cs => if d.isDigit then 2 + (cs.takeWhile isDigitRun).length else 0
  | _ => 0

/-- How many characters the digits of an exponent take: none unless the first is a digit. -/
def exponentDigits : List Char → Nat
  | d :: cs => if d.isDigit then 1 + (cs.takeWhile isDigitRun).length else 0
  | [] => 0

/-- How many characters an exponent takes, at its mark: none unless it has a digit. -/
def exponentWidth : List Char → Nat
  | [] => 0
  | e :: cs =>
    if e = 'e' ∨ e = 'E' then
      let sign := match cs with
        | '+' :: _ => 1
        | '-' :: _ => 1
        | _ => 0
      let digits := exponentDigits (cs.drop sign)
      if digits = 0 then 0 else 1 + sign + digits
    else 0

/-- The integer that an exponent's characters denote, mark and sign included. -/
def exponentValue (cs : List Char) : Int :=
  match withoutUnderscores (cs.drop 1) with
  | '-' :: ds => -(digitsValue 10 ds : Int)
  | '+' :: ds => digitsValue 10 ds
  | ds => digitsValue 10 ds

/-- The decimal of a whole part, a fraction and an exponent, each as it stands in the source. -/
def decimalOf (whole fraction exponent : List Char) : Number.Decimal :=
  let w := withoutUnderscores whole
  let f := withoutUnderscores (fraction.drop 1)
  ⟨digitsValue 10 (w ++ f), exponentValue exponent - f.length⟩

/-- The integer in the given base, if it fits into 64 bits and has a digit. -/
def integerOf (base : Nat) (digits : List Char) : Option Int64 :=
  if digits.isEmpty then none else Number.int64? (digitsValue base digits)

end Comprehend.Token
