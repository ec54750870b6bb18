import Comprehend.Json.Basic
import Comprehend.Number.Binary64
import Comprehend.Text.Hex

/-! Reading JSON texts. A reading takes a value from the front of the characters and gives back the
rest of them. -/
namespace Comprehend.Json

def isSpace (c : Char) : Bool :=
  c == ' ' || c == '\n' || c == '\t' || c == '\r'

def skipSpace (cs : List Char) : List Char :=
  cs.dropWhile isSpace

/-! Strings -/

/-- The character of an escape of one letter. -/
def simpleEscape : Char → Option Char
  | '"' => some '"'
  | '\\' => some '\\'
  | '/' => some '/'
  | 'b' => some '\x08'
  | 'f' => some '\x0c'
  | 'n' => some '\n'
  | 'r' => some '\r'
  | 't' => some '\t'
  | _ => none

/-- The contents of a string behind its opening quote, as code units: a number stands for an escape
of four hexadecimal digits. -/
def units : List Char → Option (List (Char ⊕ Nat) × List Char)
  | [] => none
  | '"' :: cs => some ([], cs)
  | '\\' :: 'u' :: a :: b :: c :: d :: cs => do
    let unit ← Text.hexNumber? [a, b, c, d]
    let (us, rest) ← units cs
    return (.inr unit :: us, rest)
  | '\\' :: e :: cs => do
    let c ← simpleEscape e
    let (us, rest) ← units cs
    return (.inl c :: us, rest)
  | c :: cs => do
    if c.toNat < 0x20 || c == '\\' then none
    else
      let (us, rest) ← units cs
      return (.inl c :: us, rest)

def isHighSurrogate (n : Nat) : Bool := 0xd800 ≤ n && n < 0xdc00

def isLowSurrogate (n : Nat) : Bool := 0xdc00 ≤ n && n < 0xe000

/-- The characters of a string, unless a surrogate stands alone in it. -/
def characters : List (Char ⊕ Nat) → Option (List Char)
  | [] => some []
  | .inl c :: us => (characters us).map (c :: ·)
  | .inr high :: .inr low :: us =>
    if isHighSurrogate high then
      if isLowSurrogate low then
        (characters us).map (Char.ofNat (0x10000 + (high - 0xd800) * 0x400 + (low - 0xdc00)) :: ·)
      else none
    else if isLowSurrogate high then none
    else (characters (.inr low :: us)).map (Char.ofNat high :: ·)
  | .inr n :: us =>
    if isHighSurrogate n || isLowSurrogate n then none
    else (characters us).map (Char.ofNat n :: ·)

/-- A string behind its opening quote; no text if it is hollow. -/
def stringBody (cs : List Char) : Option (Option String × List Char) := do
  let (us, rest) ← units cs
  return ((characters us).map String.ofList, rest)

/-! Numbers -/

def digitsValue (cs : List Char) : Nat :=
  cs.foldl (fun n c => n * 10 + (c.toNat - '0'.toNat)) 0

/-- The whole part: a zero alone, or digits that start with another one. -/
def wholePart (cs : List Char) : Option (List Char × List Char) :=
  match cs.takeWhile Char.isDigit with
  | [] => none
  | '0' :: _ => some (['0'], cs.drop 1)
  | ds => some (ds, cs.drop ds.length)

def fractionPart (cs : List Char) : Option (List Char × List Char) :=
  match cs with
  | '.' :: cs =>
    let ds := cs.takeWhile Char.isDigit
    if ds.isEmpty then none else some (ds, cs.drop ds.length)
  | _ => some ([], cs)

def isExponentMark (c : Char) : Bool :=
  c == 'e' || c == 'E'

def exponentPart (cs : List Char) : Option (Option Int × List Char) :=
  match cs with
  | e :: cs' =>
    if isExponentMark e then
      let (sign, body) : Int × List Char := match cs' with
        | '-' :: r => (-1, r)
        | '+' :: r => (1, r)
        | r => (1, r)
      let ds := body.takeWhile Char.isDigit
      if ds.isEmpty then none else some (some (sign * digitsValue ds), body.drop ds.length)
    else some (none, cs)
  | [] => some (none, cs)

def unsignedNumber (negative : Bool) (cs : List Char) : Option (Json × List Char) := do
  let (whole, cs) ← wholePart cs
  let (fraction, cs) ← fractionPart cs
  let (exponent, cs) ← exponentPart cs
  let value : Number.Decimal :=
    ⟨digitsValue (whole ++ fraction), exponent.getD 0 - fraction.length⟩
  let n := digitsValue whole
  if Number.Binary64.ofDecimal value = .infinity then return (.hollow, cs)
  else if fraction.isEmpty && exponent.isNone && !(negative && n == 0) then
    return (.int (if negative then -n else n), cs)
  else return (.real, cs)

def number (cs : List Char) : Option (Json × List Char) :=
  match cs with
  | '-' :: cs => unsignedNumber true cs
  | cs => unsignedNumber false cs

/-! Values -/

/-- An object of the members, or a hollow value if one of the keys is hollow. -/
def ofMembers (members : List (Option String × Json)) : Json :=
  match members.mapM fun m => m.1.map (·, m.2) with
  | some ms => .obj ms
  | none => .hollow

def keyword (word : List Char) (v : Json) (cs : List Char) : Option (Json × List Char) :=
  if word.isPrefixOf cs then some (v, cs.drop word.length) else none

mutual

/-- A value, behind any space. The fuel bounds the number of steps. -/
def value : (fuel : Nat) → List Char → Option (Json × List Char)
  | 0, _ => none
  | fuel + 1, cs =>
    match skipSpace cs with
    | '"' :: cs => (stringBody cs).map fun (s, rest) => (s.elim .hollow .str, rest)
    | '[' :: cs =>
      match skipSpace cs with
      | ']' :: rest => some (.arr [], rest)
      | cs => (items fuel cs).map fun (vs, rest) => (.arr vs, rest)
    | '\x7b' :: cs =>
      match skipSpace cs with
      | '\x7d' :: rest => some (.obj [], rest)
      | cs => (membersOf fuel cs).map fun (ms, rest) => (ofMembers ms, rest)
    | 't' :: cs => keyword ['r', 'u', 'e'] (.bool true) cs
    | 'f' :: cs => keyword ['a', 'l', 's', 'e'] (.bool false) cs
    | 'n' :: cs => keyword ['u', 'l', 'l'] .null cs
    | cs => number cs

/-- The items of an array from one item on, with the closing bracket. -/
def items : (fuel : Nat) → List Char → Option (List Json × List Char)
  | 0, _ => none
  | fuel + 1, cs => do
    let (v, cs) ← value fuel cs
    match skipSpace cs with
    | ',' :: cs =>
      let (vs, cs) ← items fuel cs
      return (v :: vs, cs)
    | ']' :: cs => return ([v], cs)
    | _ => none

/-- The members of an object from one key on, with the closing brace. -/
def membersOf : (fuel : Nat) → List Char → Option (List (Option String × Json) × List Char)
  | 0, _ => none
  | fuel + 1, cs =>
    match skipSpace cs with
    | '"' :: cs => do
      let (key, cs) ← stringBody cs
      match skipSpace cs with
      | ':' :: cs =>
        let (v, cs) ← value fuel cs
        match skipSpace cs with
        | ',' :: cs =>
          let (ms, cs) ← membersOf fuel cs
          return ((key, v) :: ms, cs)
        | '\x7d' :: cs => return ([(key, v)], cs)
        | _ => none
      | _ => none
    | _ => none

end

/-- The value of a text that holds nothing else. -/
def ofText? (s : String) : Option Json :=
  let cs := s.toList
  match value (cs.length + 1) cs with
  | some (v, rest) => if (skipSpace rest).isEmpty then some v else none
  | none => none

end Comprehend.Json
