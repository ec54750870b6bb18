import Comprehend.Text.CharClass

/-! Texts without the blanks around them, and texts as sequences of lines. -/
namespace Comprehend.Text

def trim (cs : List Char) : List Char :=
  ((cs.dropWhile isBlank).reverse.dropWhile isBlank).reverse

def splitLines : List Char → List (List Char)
  | [] => [[]]
  | '\n' :: cs => [] :: splitLines cs
  | c :: cs =>
    match splitLines cs with
    | line :: rest => (c :: line) :: rest
    | [] => [[c]]

/-- A piece without the carriage return at its end. -/
def dropReturn (line : List Char) : List Char :=
  match line.reverse with
  | '\r' :: cs => cs.reverse
  | _ => line

/-- The lines of a text. A line feed ends a line, and so does a carriage return before it; nothing
follows the last line feed. -/
def lines (s : String) : List String :=
  let pieces := splitLines s.toList
  let ended := pieces.dropLast.map fun line => String.ofList (dropReturn line)
  match pieces.getLast? with
  | none => ended
  | some [] => ended
  | some last => ended ++ [String.ofList last]

end Comprehend.Text
