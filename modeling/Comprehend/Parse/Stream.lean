import Comprehend.Parse.Error

/-! The tokens ahead of a reader. The last one marks the end of the text, and a reader never passes
it; a reading takes tokens from the front and gives back the rest. -/
namespace Comprehend

/-- A result, or the place at which reading failed. -/
abbrev Attempt := Except ParseError

namespace Parse

def peek : List Token → TokenKind
  | t :: _ => t.kind
  | [] => .eof

def failAt {α : Type} (fault : ParseFault) : List Token → Attempt α
  | t :: _ => .error ⟨fault, t.span⟩
  | [] => .error ⟨.ranOut, default⟩

/-- The tokens behind one of the given kind. -/
def expect (want : TokenKind) (ts : List Token) : Attempt (List Token) :=
  match ts with
  | t :: rest => if t.kind = want then .ok rest else failAt (.expected want t.kind) ts
  | [] => failAt .ranOut []

def expectIdent (ts : List Token) : Attempt (String × List Token) :=
  match ts with
  | ⟨.ident name, _⟩ :: rest => .ok (name, rest)
  | _ => failAt (.expectedIdentifier (peek ts)) ts

def startsKeyword : List Token → Bool
  | ⟨.ident _, _⟩ :: ⟨.assign, _⟩ :: _ => true
  | _ => false

end Parse

end Comprehend
