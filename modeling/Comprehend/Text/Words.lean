import Comprehend.Text.CharClass

/-! Words of a text, its longest runs of word characters, and other parts of it. -/
namespace Comprehend.Text

/-- The text with every word replaced by its image; `seen` holds the start of a word, last
character first. -/
def mapWords (f : List Char → List Char) : (seen : List Char) → List Char → List Char
  | seen, [] => f seen.reverse
  | seen, c :: cs =>
    if isWordChar c then mapWords f (c :: seen) cs
    else f seen.reverse ++ c :: mapWords f [] cs

/-- The words of a text in order, with an empty one wherever two other characters meet. -/
def words : (seen : List Char) → List Char → List (List Char)
  | seen, [] => [seen.reverse]
  | seen, c :: cs =>
    if isWordChar c then words (c :: seen) cs else seen.reverse :: words [] cs

/-- Every pair of asterisks, from the left, becomes a caret. -/
def caretForStars : List Char → List Char
  | '*' :: '*' :: cs => '^' :: caretForStars cs
  | c :: cs => c :: caretForStars cs
  | [] => []

/-- A text stands somewhere in another one. -/
def occurs (part : List Char) : List Char → Bool
  | [] => part.isEmpty
  | c :: cs => part.isPrefixOf (c :: cs) || occurs part cs

end Comprehend.Text
