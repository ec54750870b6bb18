import Comprehend.Number.Binary64
import Comprehend.Number.Int64

/-! Numbers, dates and times of TOML. Each reading gives back the characters behind what it has
read. -/
namespace Comprehend.Toml

/-- Behind digits; single underscores may stand between them. -/
def skipDigits (isDigit : Char → Bool) : List Char → List Char
  | '_' :: c :: cs => if isDigit c then skipDigits isDigit cs else '_' :: c :: cs
  | c :: cs => if isDigit c then skipDigits isDigit cs else c :: cs
  | [] => []

/-- One or more digits without their underscores, and what is behind them. -/
def digits? (isDigit : Char → Bool) (cs : List Char) : Option (List Char × List Char) :=
  match cs with
  | [] => none
  | c :: rest =>
    if isDigit c then
      let rest := skipDigits isDigit rest
      some ((cs.take (cs.length - rest.length)).filter (· != '_'), rest)
    else none

def isOctalDigit (c : Char) : Bool := '0' ≤ c && c ≤ '7'

def isBinaryDigit (c : Char) : Bool := c == '0' || c == '1'

def isHexDigit (c : Char) : Bool :=
  c.isDigit || ('a' ≤ c && c ≤ 'f') || ('A' ≤ c && c ≤ 'F')

def digitValue (c : Char) : Nat :=
  if c.isDigit then c.toNat - '0'.toNat else c.toLower.toNat - 'a'.toNat + 10

def digitsValue (base : Nat) (ds : List Char) : Nat :=
  ds.foldl (fun n c => n * base + digitValue c) 0

def skipSign : List Char → List Char
  | '+' :: cs => cs
  | '-' :: cs => cs
  | cs => cs

/-- Decimal digits of a whole number: a zero alone, or digits that start with another one. -/
def whole? (cs : List Char) : Option (List Char × List Char) :=
  match cs with
  | '0' :: cs => some (['0'], cs)
  | cs => digits? Char.isDigit cs

/-- The number of digits in a base that is not ten. -/
def based? (base : Nat) (isDigit : Char → Bool) (cs : List Char) : Option (Int × List Char) :=
  (digits? isDigit cs).map fun (ds, rest) => ((digitsValue base ds : Int), rest)

/-- The number of decimal digits behind a sign. -/
def signed? (cs : List Char) : Option (Int × List Char) :=
  (whole? (skipSign cs)).map fun (ds, rest) =>
    let n : Int := digitsValue 10 ds
    (if cs.head? = some '-' then -n else n, rest)

def integer? (cs : List Char) : Option (List Char) := do
  let (n, rest) ← match cs with
    | '0' :: 'x' :: cs => based? 16 isHexDigit cs
    | '0' :: 'o' :: cs => based? 8 isOctalDigit cs
    | '0' :: 'b' :: cs => based? 2 isBinaryDigit cs
    | cs => signed? cs
  guard (Number.int64? n).isSome
  return rest

def exponent? (cs : List Char) : Option (Int × List Char) :=
  match cs with
  | e :: cs => do
    guard (e = 'e' || e = 'E')
    let (ds, rest) ← digits? Char.isDigit (skipSign cs)
    let n : Int := digitsValue 10 ds
    return (if cs.head? = some '-' then -n else n, rest)
  | [] => none

/-- A number with a fraction or an exponent, within the finite ones. -/
def decimal? (cs : List Char) : Option (List Char) := do
  let (units, cs) ← whole? (skipSign cs)
  let (fraction, exponent, rest) ← match cs with
    | '.' :: cs => do
      let (ds, cs) ← digits? Char.isDigit cs
      let (e, rest) := (exponent? cs).getD (0, cs)
      pure (ds, e, rest)
    | cs => (exponent? cs).map fun (e, rest) => ([], e, rest)
  let value : Number.Decimal := ⟨digitsValue 10 (units ++ fraction), exponent - fraction.length⟩
  guard (Number.Binary64.ofDecimal value ≠ .infinity)
  return rest

/-- A number that is not finite, or none. -/
def special? (cs : List Char) : Option (List Char) :=
  match skipSign cs with
  | 'i' :: 'n' :: 'f' :: cs => some cs
  | 'n' :: 'a' :: 'n' :: cs => some cs
  | _ => none

def twoDigits? (low high : Nat) : List Char → Option (Nat × List Char)
  | a :: b :: cs =>
    let n := digitsValue 10 [a, b]
    if a.isDigit && b.isDigit && low ≤ n && n ≤ high then some (n, cs) else none
  | _ => none

def fourDigits? : List Char → Option (Nat × List Char)
  | a :: b :: c :: d :: cs =>
    if [a, b, c, d].all Char.isDigit then some (digitsValue 10 [a, b, c, d], cs) else none
  | _ => none

def expect? (c : Char) : List Char → Option (List Char)
  | d :: cs => if d = c then some cs else none
  | [] => none

def daysIn (year month : Nat) : Nat :=
  if month = 2 then
    if year % 4 = 0 && (year % 100 ≠ 0 || year % 400 = 0) then 29 else 28
  else if month ∈ [4, 6, 9, 11] then 30
  else 31

def date? (cs : List Char) : Option (List Char) := do
  let (year, cs) ← fourDigits? cs
  let (month, cs) ← twoDigits? 1 12 (← expect? '-' cs)
  let (_, cs) ← twoDigits? 1 (daysIn year month) (← expect? '-' cs)
  return cs

def time? (cs : List Char) : Option (List Char) := do
  let (_, cs) ← twoDigits? 0 23 cs
  let (_, cs) ← twoDigits? 0 59 (← expect? ':' cs)
  let (_, cs) ← twoDigits? 0 60 (← expect? ':' cs)
  match cs with
  | '.' :: c :: cs => return if c.isDigit then cs.dropWhile Char.isDigit else '.' :: c :: cs
  | cs => return cs

/-- The distance to universal time. -/
def offset? : List Char → Option (List Char)
  | 'Z' :: cs => some cs
  | 'z' :: cs => some cs
  | c :: cs => do
    guard (c = '+' || c = '-')
    let (_, cs) ← twoDigits? 0 23 cs
    let (_, cs) ← twoDigits? 0 59 (← expect? ':' cs)
    return cs
  | [] => none

/-- A time with an offset, behind the mark that divides it from its date. -/
def dayTime? : List Char → Option (List Char)
  | c :: cs => do
    guard (c = 'T' || c = 't' || c = ' ')
    let cs ← time? cs
    return (offset? cs).getD cs
  | [] => none

/-- A date, a date with a time, or a time. -/
def moment? (cs : List Char) : Option (List Char) :=
  match date? cs with
  | some cs => some ((dayTime? cs).getD cs)
  | none => time? cs

def scalar? (cs : List Char) : Option (List Char) :=
  (((moment? cs).or (decimal? cs)).or (special? cs)).or (integer? cs)

end Comprehend.Toml
