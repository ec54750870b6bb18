import Comprehend.Token.Number

/-! Scanning a source text into tokens.

A line feed is a token outside brackets and blank space inside them. The scanner walks the
characters once: at a place where a token may begin it decides how many characters belong together,
and then passes over the rest of them. -/
namespace Comprehend.Token

inductive ScanFault where
  | unterminatedString
  | unterminatedEscape
  | hexLiteral (digits : String)
  | integerLiteral (digits : String)
  | exclamation
  | character (c : Char)
deriving DecidableEq

def ScanFault.message : ScanFault → String
  | unterminatedString => "unterminated string literal"
  | unterminatedEscape => "unterminated escape sequence"
  | hexLiteral digits => "invalid hex literal '0x" ++ digits ++ "'"
  | integerLiteral digits => "invalid integer literal '" ++ digits ++ "'"
  | exclamation => "unexpected character '!'; use 'not' for logical negation"
  | character c => "unexpected character '" ++ c.toString ++ "'"

structure ScanError where
  fault : ScanFault
  span : Span
deriving DecidableEq

/-- What an escaped character stands for. An unknown escape stands for itself. -/
def unescape : Char → List Char
  | 'n' => ['\n']
  | 't' => ['\t']
  | 'r' => ['\r']
  | '0' => ['\x00']
  | '\\' => ['\\']
  | '\'' => ['\'']
  | '"' => ['"']
  | c => ['\\', c]

/-- A reading in which `n` more characters stand before what was read. -/
def shifted {α : Type} (n : Nat) (f : α → α) :
    Except (ScanFault × Nat) (α × Nat) → Except (ScanFault × Nat) (α × Nat)
  | .ok (a, width) => .ok (f a, n + width)
  | .error (fault, width) => .error (fault, n + width)

/-- The contents of a string behind its opening quote, and how many characters they and the closing
quote take. -/
def quoted (quote : Char) : List Char → Except (ScanFault × Nat) (List Char × Nat)
  | [] => .error (.unterminatedString, 0)
  | c :: cs =>
    if c = '\n' then .error (.unterminatedString, 0)
    else if c = quote then .ok ([], 1)
    else if c = '\\' then
      match cs with
      | [] => .error (.unterminatedEscape, 1)
      | e :: cs => shifted 2 (unescape e ++ ·) (quoted quote cs)
    else shifted 1 (c :: ·) (quoted quote cs)

/-- An integer in base sixteen, at its leading zero. -/
def hexNumber (cs : List Char) : Except (ScanFault × Nat) (TokenKind × Nat) :=
  let run := (cs.drop 2).takeWhile isHexRun
  let digits := withoutUnderscores run
  match integerOf 16 digits with
  | some n => .ok (.int n, 2 + run.length)
  | none => .error (.hexLiteral (String.ofList digits), 2 + run.length)

/-- A number in base ten, at its first digit or at the point before it. -/
def decimalNumber (cs : List Char) : Except (ScanFault × Nat) (TokenKind × Nat) :=
  let whole := cs.takeWhile isDigitRun
  let afterWhole := cs.drop whole.length
  let fraction := afterWhole.take (fractionWidth afterWhole)
  let afterFraction := afterWhole.drop fraction.length
  let exponent := afterFraction.take (exponentWidth afterFraction)
  let width := whole.length + fraction.length + exponent.length
  if fraction.isEmpty && exponent.isEmpty then
    let digits := withoutUnderscores whole
    match integerOf 10 digits with
    | some n => .ok (.int n, width)
    | none => .error (.integerLiteral (String.ofList digits), width)
  else .ok (.float (.ofDecimal (decimalOf whole fraction exponent)), width)

def isHexMark (c : Char) : Bool :=
  c == 'x' || c == 'X'

def number (cs : List Char) : Except (ScanFault × Nat) (TokenKind × Nat) :=
  match cs with
  | '0' :: c :: _ => if isHexMark c then hexNumber cs else decimalNumber cs
  | _ => decimalNumber cs

def double : Char → Char → Option TokenKind
  | '*', '*' => some .starStar
  | '/', '/' => some .slashSlash
  | '=', '=' => some .eqEq
  | '!', '=' => some .notEq
  | '<', '=' => some .ltEq
  | '<', '<' => some .shl
  | '>', '=' => some .gtEq
  | '>', '>' => some .shr
  | _, _ => none

def single : Char → Option TokenKind
  | '(' => some .lparen
  | ')' => some .rparen
  | '[' => some .lbracket
  | ']' => some .rbracket
  | '\x7b' => some .lbrace
  | '\x7d' => some .rbrace
  | ',' => some .comma
  | ':' => some .colon
  | ';' => some .semicolon
  | '.' => some .dot
  | '=' => some .assign
  | '<' => some .lt
  | '>' => some .gt
  | '+' => some .plus
  | '-' => some .minus
  | '*' => some .star
  | '/' => some .slash
  | '%' => some .percent
  | '&' => some .amp
  | '|' => some .pipe
  | '^' => some .caret
  | '~' => some .tilde
  | _ => none

/-- An operator or delimiter, the longer one where two are possible. -/
def operator (c : Char) (cs : List Char) : Option (TokenKind × Nat) :=
  match cs.head?.bind (double c) with
  | some k => some (k, 2)
  | none => (single c).map (·, 1)

/-- A number starts with a digit, or with a point and a digit. -/
def startsNumber (c : Char) (cs : List Char) : Bool :=
  c.isDigit || (c == '.' && cs.head?.any Char.isDigit)

/-- The token that starts with `c`, and its width. -/
def lexeme (c : Char) (cs : List Char) : Except (ScanFault × Nat) (TokenKind × Nat) :=
  if c = '"' ∨ c = '\'' then
    match quoted c cs with
    | .ok (value, width) => .ok (.str (String.ofList value), 1 + width)
    | .error (fault, width) => .error (fault, 1 + width)
  else if startsNumber c cs then number (c :: cs)
  else if Text.isIdentStart c then
    let word := c :: cs.takeWhile Text.isIdentRest
    .ok (.ofWord (String.ofList word), word.length)
  else
    match operator c cs with
    | some found => .ok found
    | none => .error (if c = '!' then .exclamation else .character c, 1)

/-- How many characters from `c` on are skipped together: a blank, a line feed inside brackets, a
backslash with the line feed behind it, or a comment; none where a token starts. -/
def gap (depth : Nat) (c : Char) (cs : List Char) : Nat :=
  if c = '\n' then (if 0 < depth then 1 else 0)
  else if Text.isBlank c then 1
  else if c = '\\' ∧ cs.head? = some '\n' then 2
  else if c = '#' then 1 + (cs.takeWhile (· != '\n')).length
  else 0

/-- The tokens from a place on. The next `skip` characters belong to what was read before. -/
def scanFrom (depth : Nat) : (skip : Nat) → Place → List Char → Except ScanError (List Token)
  | _, p, [] => .ok [⟨.eof, p.span 0⟩]
  | skip + 1, p, c :: cs => scanFrom depth skip (p.next c) cs
  | 0, p, c :: cs =>
    match gap depth c cs with
    | skipped + 1 => scanFrom depth skipped (p.next c) cs
    | 0 =>
      if c = '\n' then
        (scanFrom depth 0 (p.next c) cs).map (⟨.newline, p.span 1⟩ :: ·)
      else
        match lexeme c cs with
        | .error (fault, width) => .error ⟨fault, p.span width⟩
        | .ok (kind, width) =>
          (scanFrom (kind.depthAfter depth) (width - 1) (p.next c) cs).map
            (⟨kind, p.span width⟩ :: ·)

/-- All tokens of a source text, the last one marking its end. -/
def scan (source : List Char) : Except ScanError (List Token) :=
  scanFrom 0 0 {} source

end Comprehend.Token
