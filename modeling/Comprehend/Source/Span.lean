import Comprehend.Text.Trim

/-! Places in a source text, counted in characters. -/
namespace Comprehend

/-- A stretch of the source: the characters from `start` up to `stop`, and the line and column of
the first of them, both counted from one. -/
structure Span where
  start : Nat
  stop : Nat
  line : Nat
  col : Nat
deriving DecidableEq, Inhabited

/-- A position between two characters of the source. -/
structure Place where
  offset : Nat := 0
  line : Nat := 1
  col : Nat := 1
deriving DecidableEq

namespace Place

def next (p : Place) (c : Char) : Place :=
  if c = '\n' then ⟨p.offset + 1, p.line + 1, 1⟩ else ⟨p.offset + 1, p.line, p.col + 1⟩

/-- The stretch of `width` characters from `p` on. -/
def span (p : Place) (width : Nat) : Span :=
  ⟨p.offset, p.offset + width, p.line, p.col⟩

@[simp] theorem offset_next (p : Place) (c : Char) : (p.next c).offset = p.offset + 1 := by
  unfold next; split <;> rfl

end Place

namespace Span

/-- The least stretch that covers both. -/
def merge (a b : Span) : Span :=
  let first := if a.start ≤ b.start then a else b
  ⟨min a.start b.start, max a.stop b.stop, first.line, first.col⟩

def slice (s : Span) (source : List Char) : List Char :=
  (source.take s.stop).drop s.start

/-- The covered text without surrounding blanks. -/
def text (s : Span) (source : List Char) : String :=
  String.ofList (Text.trim (s.slice source))

def display (s : Span) : String :=
  toString s.line ++ ":" ++ toString s.col

end Span

end Comprehend
