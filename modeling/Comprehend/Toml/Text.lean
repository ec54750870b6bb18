import Comprehend.Text.Hex

/-! Blanks, comments, strings and keys of TOML. A reading takes something from the front of the
characters and gives back the rest of them. -/
namespace Comprehend.Toml

def isBlank (c : Char) : Bool :=
  c == ' ' || c == '\t'

def skipBlanks (cs : List Char) : List Char :=
  cs.dropWhile isBlank

/-- A character that may stand in a text as it is: no control character other than a tab. -/
def isPlain (c : Char) : Bool :=
  c == '\t' || (0x20 ≤ c.toNat && c.toNat != 0x7f)

/-- The end of a line: a line feed, or a carriage return and a line feed. -/
def newline? : List Char → Option (List Char)
  | '\n' :: cs => some cs
  | '\r' :: '\n' :: cs => some cs
  | _ => none

/-- Without the comment at the front, if there is one. -/
def skipComment : List Char → List Char
  | '#' :: cs => cs.dropWhile isPlain
  | cs => cs

/-- Blanks, a comment, and then the end of the line or of the document. -/
def lineEnd? (cs : List Char) : Option (List Char) :=
  match skipComment (skipBlanks cs) with
  | [] => some []
  | cs => newline? cs

/-- Without the blanks and line ends at the front. -/
def skipLines : List Char → List Char
  | ' ' :: cs => skipLines cs
  | '\t' :: cs => skipLines cs
  | '\n' :: cs => skipLines cs
  | '\r' :: '\n' :: cs => skipLines cs
  | cs => cs

/-- Without the blanks, line ends and at most as many comments at the front as the fuel says. -/
def skipComments : (fuel : Nat) → List Char → List Char
  | 0, cs => skipLines cs
  | fuel + 1, cs =>
    match skipLines cs with
    | '#' :: cs => skipComments fuel (cs.dropWhile isPlain)
    | cs => cs

/-- Without the blanks, line ends and comments at the front. -/
def skipFiller (cs : List Char) : List Char :=
  skipComments cs.length cs

/-! Strings -/

/-- The character of a code point, if there is one. -/
def scalarChar? (n : Nat) : Option Char :=
  if n < 0xd800 || (0xe000 ≤ n && n < 0x110000) then some (Char.ofNat n) else none

def simpleEscape? : Char → Option Char
  | '"' => some '"'
  | '\\' => some '\\'
  | 'b' => some '\x08'
  | 'f' => some '\x0c'
  | 'n' => some '\n'
  | 'r' => some '\r'
  | 't' => some '\t'
  | _ => none

/-- The character of an escape, behind its backslash. -/
def escape? : List Char → Option (Char × List Char)
  | 'u' :: a :: b :: c :: d :: cs => do return (← scalarChar? (← Text.hexNumber? [a, b, c, d]), cs)
  | 'U' :: a :: b :: c :: d :: e :: f :: g :: h :: cs => do
    return (← scalarChar? (← Text.hexNumber? [a, b, c, d, e, f, g, h]), cs)
  | c :: cs => (simpleEscape? c).map (·, cs)
  | [] => none

/-- The text of a string up to its quote. The fuel bounds the number of characters. -/
def basic : (fuel : Nat) → List Char → Option (List Char × List Char)
  | 0, _ => none
  | fuel + 1, cs =>
    match cs with
    | '"' :: cs => some ([], cs)
    | '\\' :: cs => do
      let (c, cs) ← escape? cs
      let (text, rest) ← basic fuel cs
      return (c :: text, rest)
    | c :: cs => do
      guard (isPlain c)
      let (text, rest) ← basic fuel cs
      return (c :: text, rest)
    | [] => none

/-- The text of a string without escapes up to its quote. -/
def literal : List Char → Option (List Char × List Char)
  | '\'' :: cs => some ([], cs)
  | c :: cs => if isPlain c then (literal cs).map fun (text, rest) => (c :: text, rest) else none
  | [] => none

/-- The end of a text over several lines: three quotes, with up to two more in front of them that
belong to the text. -/
def closing? (quote : Char) (cs : List Char) : Option (List Char × List Char) :=
  let run := (cs.takeWhile (· == quote)).length
  if run < 3 then none
  else
    let own := min (run - 3) 2
    some (List.replicate own quote, cs.drop (own + 3))

/-- Without the line end behind a backslash and all blanks and line ends that follow it. -/
def joinedLine? (cs : List Char) : Option (List Char) :=
  (newline? (skipBlanks cs)).map skipLines

/-- The text of a string over several lines up to its quotes. -/
def basicLines : (fuel : Nat) → List Char → Option (List Char × List Char)
  | 0, _ => none
  | fuel + 1, cs =>
    match closing? '"' cs with
    | some found => some found
    | none =>
      match newline? cs, cs with
      | some cs, _ => do
        let (text, rest) ← basicLines fuel cs
        return ('\n' :: text, rest)
      | none, '\\' :: cs =>
        match joinedLine? cs with
        | some cs => basicLines fuel cs
        | none => do
          let (c, cs) ← escape? cs
          let (text, rest) ← basicLines fuel cs
          return (c :: text, rest)
      | none, c :: cs => do
        guard (isPlain c)
        let (text, rest) ← basicLines fuel cs
        return (c :: text, rest)
      | none, [] => none

/-- The text of a string without escapes over several lines up to its quotes. -/
def literalLines : (fuel : Nat) → List Char → Option (List Char × List Char)
  | 0, _ => none
  | fuel + 1, cs =>
    match closing? '\'' cs with
    | some found => some found
    | none =>
      match newline? cs, cs with
      | some cs, _ => do
        let (text, rest) ← literalLines fuel cs
        return ('\n' :: text, rest)
      | none, c :: cs => do
        guard (isPlain c)
        let (text, rest) ← literalLines fuel cs
        return (c :: text, rest)
      | none, [] => none

/-- A line end right behind the opening quotes is no part of the text. -/
def skipFirstNewline (cs : List Char) : List Char :=
  (newline? cs).getD cs

def string? (cs : List Char) : Option (String × List Char) :=
  let fuel := cs.length
  let found := match cs with
    | '"' :: '"' :: '"' :: cs => basicLines fuel (skipFirstNewline cs)
    | '"' :: cs => basic fuel cs
    | '\'' :: '\'' :: '\'' :: cs => literalLines fuel (skipFirstNewline cs)
    | '\'' :: cs => literal cs
    | _ => none
  found.map fun (text, rest) => (String.ofList text, rest)

/-! Keys -/

def isKeyChar (c : Char) : Bool :=
  c.isAlphanum || c == '-' || c == '_'

def simpleKey? : List Char → Option (String × List Char)
  | '"' :: cs => (basic (cs.length + 1) cs).map fun (text, rest) => (String.ofList text, rest)
  | '\'' :: cs => (literal cs).map fun (text, rest) => (String.ofList text, rest)
  | cs =>
    match cs.takeWhile isKeyChar with
    | [] => none
    | key => some (String.ofList key, cs.drop key.length)

/-- One or more keys with dots between them, and the blanks around them. -/
def dottedKey? : (fuel : Nat) → List Char → Option (List String × List Char)
  | 0, _ => none
  | fuel + 1, cs => do
    let (key, cs) ← simpleKey? (skipBlanks cs)
    match skipBlanks cs with
    | '.' :: cs =>
      let (keys, cs) ← dottedKey? fuel cs
      return (key :: keys, cs)
    | cs => return ([key], cs)

def key? (cs : List Char) : Option (List String × List Char) :=
  dottedKey? (cs.length + 1) cs

end Comprehend.Toml
