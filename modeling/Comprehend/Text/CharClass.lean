import Comprehend.Text.Alphabetic
import Comprehend.Text.Joining
import Comprehend.Text.Numeric

/-! Character classes of the source language. ASCII is decided first, so that the interval tables
are only consulted for the rest of Unicode. Identifiers follow Unicode 17.0. Words follow 16.0, so
a letter of 17.0 alone may stand in an identifier and yet lie outside every word. -/
namespace Comprehend.Text

/-- Some interval of the table holds the code point of `c`. -/
def within (intervals : List (Nat × Nat)) (c : Char) : Bool :=
  intervals.any fun i => i.1 ≤ c.toNat && c.toNat ≤ i.2

/-- The Unicode property `White_Space`. -/
def isBlank (c : Char) : Bool :=
  let n := c.toNat
  n == 0x20 || (0x9 ≤ n && n ≤ 0xd) || n == 0x85 || n == 0xa0 || n == 0x1680 ||
    (0x2000 ≤ n && n ≤ 0x200a) || n == 0x2028 || n == 0x2029 || n == 0x202f || n == 0x205f ||
    n == 0x3000

def isLetter (c : Char) : Bool :=
  if c.toNat < 128 then c.isAlpha
  else within alphabeticIntervals c || within addedAlphabeticIntervals c

def isNumeral (c : Char) : Bool :=
  if c.toNat < 128 then c.isDigit else within numericIntervals c

def isHexDigit (c : Char) : Bool :=
  c.isDigit || ('a' ≤ c && c ≤ 'f') || ('A' ≤ c && c ≤ 'F')

def isIdentStart (c : Char) : Bool :=
  isLetter c || c == '_'

def isIdentRest (c : Char) : Bool :=
  isLetter c || isNumeral c || c == '_'

/-- A character inside a word: word boundaries lie where this property changes. -/
def isWordChar (c : Char) : Bool :=
  if c.toNat < 128 then c.isAlphanum || c == '_'
  else within alphabeticIntervals c || within joiningIntervals c

theorem isIdentRest_of_isIdentStart {c : Char} (h : isIdentStart c = true) :
    isIdentRest c = true := by
  simp only [isIdentStart, Bool.or_eq_true] at h
  rcases h with h | h <;> simp [isIdentRest, h]

end Comprehend.Text
