import Comprehend.Toml.Basic
import Comprehend.Toml.Number
import Comprehend.Toml.Text

/-! Reading TOML documents: values, and lines that each hold a header or a key with its value. -/
namespace Comprehend.Toml

def assign (path : List String) (v : Value) (es : Entries) : Option Entries :=
  match path.getLast? with
  | none => none
  | some key => alterDotted (insertNew key v) path.dropLast es

mutual

/-- A value. The fuel bounds the number of steps. -/
def value : (fuel : Nat) → List Char → Option (Value × List Char)
  | 0, _ => none
  | fuel + 1, cs =>
    match cs with
    | '[' :: cs => (items fuel cs).map fun (vs, rest) => (.arr vs, rest)
    | '\x7b' :: cs =>
      match skipBlanks cs with
      | '\x7d' :: rest => some (.table [], rest)
      | cs => (pairs fuel [] cs).map fun (es, rest) => (.table (membersOf es), rest)
    | 't' :: 'r' :: 'u' :: 'e' :: rest => some (.bool true, rest)
    | 'f' :: 'a' :: 'l' :: 's' :: 'e' :: rest => some (.bool false, rest)
    | '"' :: _ => (string? cs).map fun (s, rest) => (.str s, rest)
    | '\'' :: _ => (string? cs).map fun (s, rest) => (.str s, rest)
    | cs => (scalar? cs).map (.scalar, ·)

/-- The items of an array with the closing bracket; a comma may stand behind the last one. -/
def items : (fuel : Nat) → List Char → Option (List Value × List Char)
  | 0, _ => none
  | fuel + 1, cs =>
    match skipFiller cs with
    | ']' :: rest => some ([], rest)
    | cs => do
      let (v, cs) ← value fuel cs
      match skipFiller cs with
      | ',' :: cs =>
        let (vs, rest) ← items fuel cs
        return (v :: vs, rest)
      | ']' :: rest => return ([v], rest)
      | _ => none

/-- The members of a table on one line from one key on, with the closing brace. -/
def pairs : (fuel : Nat) → Entries → List Char → Option (Entries × List Char)
  | 0, _, _ => none
  | fuel + 1, es, cs => do
    let (path, cs) ← key? cs
    let (v, cs) ← value fuel (skipBlanks (← expect? '=' cs))
    let es ← assign path v es
    match skipBlanks cs with
    | ',' :: cs => pairs fuel es cs
    | '\x7d' :: rest => return (es, rest)
    | _ => none

end

/-- A document as far as it is read, and the path of the table that the next keys belong to. -/
structure State where
  current : List String := []
  root : Entries := []

namespace State

def header (path : List String) (act : String → Entries → Option Entries) (s : State) :
    Option State := do
  let key ← path.getLast?
  return ⟨path, ← alterUnder (act key) path.dropLast s.root⟩

def keyValue (path : List String) (v : Value) (s : State) : Option State := do
  return ⟨s.current, ← alterUnder (assign path v) s.current s.root⟩

end State

/-- One line that is not empty, and a change of the document. -/
def statement? (cs : List Char) : Option ((State → Option State) × List Char) :=
  match cs with
  | '[' :: '[' :: cs => do
    let (path, cs) ← key? cs
    let rest ← lineEnd? (← expect? ']' (← expect? ']' cs))
    return (State.header path appendTable, rest)
  | '[' :: cs => do
    let (path, cs) ← key? cs
    let rest ← lineEnd? (← expect? ']' cs)
    return (State.header path openTable, rest)
  | cs => do
    let (path, cs) ← key? cs
    let cs := skipBlanks (← expect? '=' cs)
    let (v, cs) ← value (2 * cs.length + 2) cs
    return (State.keyValue path v, ← lineEnd? cs)

/-- The lines of a document one after the other. The fuel bounds their number. -/
def statements : (fuel : Nat) → State → List Char → Option State
  | 0, _, _ => none
  | fuel + 1, s, cs =>
    match skipBlanks cs with
    | [] => some s
    | '#' :: cs => do statements fuel s (← lineEnd? ('#' :: cs))
    | cs =>
      match newline? cs with
      | some cs => statements fuel s cs
      | none => do
        let (change, rest) ← statement? cs
        statements fuel (← change s) rest

/-- A byte order mark at the front of a document is left out. -/
def skipMark : List Char → List Char
  | '\ufeff' :: cs => cs
  | cs => cs

def ofText? (text : String) : Option (List (String × Value)) :=
  let cs := skipMark text.toList
  (statements (cs.length + 1) {} cs).map fun s => membersOf s.root

end Comprehend.Toml
