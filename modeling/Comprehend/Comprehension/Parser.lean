import Comprehend.Comprehension.Basic
import Comprehend.Expr.Constant
import Comprehend.Expr.Parser

/-! Reading comprehensions. Only their skeleton is read as such. An expression in them is a run of
tokens up to the next word of the skeleton outside brackets, and is kept as the text of that run. -/
namespace Comprehend.Comprehension

open Parse

/-! Runs of tokens -/

/-- A line feed or a semicolon. -/
def isSeparator : TokenKind → Bool
  | .newline | .semicolon => true
  | _ => false

/-- The tokens up to the first one outside brackets that `stop` names, that closes a bracket or that
ends a statement, and the tokens from there on. -/
def runUntil (stop : TokenKind → Bool) : (depth : Nat) → List Token →
    Attempt (List Token × List Token)
  | _, [] => failAt .ranOut []
  | depth, t :: ts =>
    if t.kind = .eof then
      if 0 < depth then failAt .unclosedBracket (t :: ts) else .ok ([], t :: ts)
    else if depth = 0 && (stop t.kind || t.kind.isClosing || isSeparator t.kind) then
      .ok ([], t :: ts)
    else do
      let (run, rest) ← runUntil stop (t.kind.depthAfter depth) ts
      return (t :: run, rest)

/-- The stretch of the source from the first token of a run to its last. -/
def runSpan (first : Token) (run : List Token) : Span :=
  first.span.merge ((run.getLast?.getD first).span)

def captureRun (stop : TokenKind → Bool) (ts : List Token) :
    Attempt ((Token × List Token) × List Token) := do
  match ← runUntil stop 0 ts with
  | (first :: run, rest) => return ((first, run), rest)
  | ([], rest) => failAt (.expectedExpression (peek rest)) rest

/-- The text of a run that is not empty. -/
def capture (source : List Char) (stop : TokenKind → Bool) (ts : List Token) :
    Attempt (String × List Token) := do
  let ((first, run), rest) ← captureRun stop ts
  return ((runSpan first run).text source, rest)

/-- The tokens up to the bracket that closes the one before them, and the tokens behind it. -/
def splitAtClose : (depth : Nat) → List Token → Option (List Token × List Token)
  | _, [] => none
  | depth, t :: ts =>
    if t.kind.isClosing && depth = 0 then some ([], ts)
    else (splitAtClose (t.kind.depthAfter depth) ts).map fun (inside, rest) => (t :: inside, rest)

/-! Ranges -/

/-- The runs between the commas outside brackets, empty ones included. -/
def splitAtCommas : (depth : Nat) → List Token → List (List Token)
  | _, [] => [[]]
  | depth, t :: ts =>
    if depth = 0 && t.kind = .comma then [] :: splitAtCommas depth ts
    else
      match splitAtCommas (t.kind.depthAfter depth) ts with
      | run :: runs => (t :: run) :: runs
      | [] => [[t]]

/-- The argument runs of a call; an empty run is no argument. -/
def arguments (inside : List Token) : List (Token × List Token) :=
  (splitAtCommas 0 inside).filterMap fun
    | [] => none
    | first :: run => some (first, run)

/-- The constant that an argument of a range denotes. -/
def rangeBound (source : List Char) (arg : Token × List Token) : Attempt Int64 :=
  let span := runSpan arg.1 arg.2
  let text := span.text source
  match (Expr.parse? text).bind Expr.evalInt with
  | some n => .ok n
  | none => .error ⟨.rangeBound text, span⟩

/-- The range of one, two or three bounds. -/
def rangeOf (bounds : List Int64) : Except ParseFault Range :=
  match bounds with
  | [stop] => .ok ⟨0, stop, 1⟩
  | [start, stop] => .ok ⟨start, stop, 1⟩
  | [start, stop, step] => if step = 0 then .error .rangeStep else .ok ⟨start, stop, step⟩
  | _ => .error (.rangeArity bounds.length)

/-- The range that a call with the given arguments denotes; `span` covers the whole call. -/
def rangeCall (source : List Char) (span : Span) (inside : List Token) : Attempt Range := do
  let args := arguments inside
  match args.find? fun a => startsKeyword (a.1 :: a.2) with
  | some a => .error ⟨.rangeKeyword, a.1.span⟩
  | none =>
    let bounds ← args.mapM (rangeBound source)
    match rangeOf bounds with
    | .ok r => return r
    | .error fault => .error ⟨fault, span⟩

/-- The arguments of a run that is a call of `range` and nothing else. -/
def rangeArguments? (first : Token) (run : List Token) : Option (List Token) :=
  match run with
  | ⟨.lparen, _⟩ :: inside =>
    if first.kind = .ident "range" then
      match splitAtClose 0 inside with
      | some (args, []) => some args
      | _ => none
    else none
  | _ => none

/-! Clauses -/

def endsFilter : TokenKind → Bool
  | .kwIf | .kwFor | .comma => true
  | _ => false

/-- What a loop runs over: a range with constant bounds, or any other text. -/
def iterable (source : List Char) (ts : List Token) : Attempt (Source × List Token) := do
  let ((first, run), rest) ← captureRun endsFilter ts
  let span := runSpan first run
  match rangeArguments? first run with
  | some inside => return (.range (← rangeCall source span inside), rest)
  | none => return (.text (span.text source), rest)

def loopVariable (bound : List String) (ts : List Token) : Attempt (String × List Token) :=
  match ts with
  | ⟨.ident var, span⟩ :: rest =>
    if peek rest = .comma ∨ peek rest = .dot then failAt .destructuring rest
    else if var ∈ bound then .error ⟨.boundTwice var, span⟩
    else .ok (var, rest)
  | ⟨.lparen, _⟩ :: _ => failAt .destructuring ts
  | ⟨.lbracket, _⟩ :: _ => failAt .destructuring ts
  | _ => failAt (.expectedVariable (peek ts)) ts

def filters (source : List Char) : (fuel : Nat) → List Token → Attempt (List String × List Token)
  | 0, _ => Expr.outOfFuel
  | fuel + 1, ts => do
    if peek ts = .kwIf then
      let (filter, ts) ← capture source endsFilter (ts.drop 1)
      let (more, ts) ← filters source fuel ts
      return (filter :: more, ts)
    else return ([], ts)

/-- The loops from here on, each with its filters. -/
def clauses (source : List Char) : (bound : List String) → (fuel : Nat) → List Token →
    Attempt (List Generator × List Token)
  | _, 0, _ => Expr.outOfFuel
  | bound, fuel + 1, ts => do
    if peek ts = .kwFor then
      let (var, ts) ← loopVariable bound (ts.drop 1)
      let ts ← expect .kwIn ts
      let (items, ts) ← iterable source ts
      let (conditions, ts) ← filters source (ts.length + 1) ts
      let (more, ts) ← clauses source (var :: bound) fuel ts
      return (⟨var, items, conditions⟩ :: more, ts)
    else return ([], ts)

def loopsFrom (source : List Char) (ts : List Token) : Attempt (List Generator × List Token) :=
  clauses source [] (ts.length + 1) ts

/-! Comprehensions -/

def origin (name : String) : Table String :=
  Table.empty.insert "origin" name

def isFor (k : TokenKind) : Bool :=
  k = .kwFor

/-- A list in square brackets or a generator in round ones, at the opening bracket. -/
def bracketed (source : List Char) (shape : Shape) (ts : List Token) :
    Attempt (Comprehension × List Token) := do
  let close : TokenKind := if peek ts = .lbracket then .rbracket else .rparen
  let (element, ts) ← capture source isFor (ts.drop 1)
  if peek ts = .kwFor then
    let (loops, ts) ← loopsFrom source ts
    let ts ← expect close ts
    let name := if shape = .list then "list_comp" else "genexp"
    return ({ ofElement shape element loops with provenance := origin name }, ts)
  else failAt (if shape = .list then .listDisplay else .parenthesized) ts

def endsKey : TokenKind → Bool
  | .kwFor | .colon => true
  | _ => false

/-- A set or a dictionary, at the opening brace. -/
def braced (source : List Char) (ts : List Token) : Attempt (Comprehension × List Token) := do
  let (first, ts) ← capture source endsKey (ts.drop 1)
  if peek ts = .colon then
    let (value, ts) ← capture source isFor (ts.drop 1)
    if peek ts = .kwFor then
      let (loops, ts) ← loopsFrom source ts
      let ts ← expect .rbrace ts
      return ({ ofPair first value loops with provenance := origin "dict_comp" }, ts)
    else failAt .dictDisplay ts
  else if peek ts = .kwFor then
    let (loops, ts) ← loopsFrom source ts
    let ts ← expect .rbrace ts
    return ({ ofElement .set first loops with provenance := origin "set_comp" }, ts)
  else failAt .setDisplay ts

/-! Reductions -/

/-- A loop starts outside the brackets of a run. -/
def hasLoop : (depth : Nat) → List Token → Bool
  | _, [] => false
  | depth, t :: ts => (depth = 0 && isFor t.kind) || hasLoop (t.kind.depthAfter depth) ts

/-- The bracket at the front opens a comprehension, and that is a whole argument. -/
def isWholeArgument (ts : List Token) : Bool :=
  match ts with
  | t :: rest =>
    match t.kind.isOpening, splitAtClose 0 rest with
    | true, some (inside, after) =>
      (peek after = .rparen || peek after = .comma) && hasLoop 0 inside
    | _, _ => false
  | [] => false

/-- The name of a reducer; `math.prod` is one as well. -/
def reducerName (ts : List Token) : Attempt ((Reducer × String) × List Token) := do
  let (name, rest) ← expectIdent ts
  if name = "math" && peek rest = .dot then
    let (field, rest) ← expectIdent (rest.drop 1)
    if field = "prod" then return ((.prod, field), rest)
    else failAt (.mathFunction field) ts
  else
    match Reducer.ofName? name with
    | some r => return ((r, name), rest)
    | none => failAt (.function name) ts

def endsElement : TokenKind → Bool
  | .kwFor | .comma => true
  | _ => false

/-- The argument of a reducer: a comprehension in brackets, or a generator without them. -/
def reducerArgument (source : List Char) (name : String) (ts : List Token) :
    Attempt (Comprehension × List Token) := do
  if peek ts = .lbracket && isWholeArgument ts then bracketed source .list ts
  else if peek ts = .lparen && isWholeArgument ts then bracketed source .generator ts
  else if peek ts = .lbrace then failAt (.expectedGenerator name) ts
  else
    let (element, ts) ← capture source endsElement ts
    if peek ts = .kwFor then
      let (loops, ts) ← loopsFrom source ts
      return (ofElement .generator element loops, ts)
    else if peek ts = .comma then failAt (.oneArgument name) ts
    else failAt (.expectedGenerator name) ts

def reducerCall (source : List Char) (ts : List Token) : Attempt (Comprehension × List Token) := do
  let ((reducer, name), ts) ← reducerName ts
  if peek ts ≠ .lparen then failAt (.expectedCall name) ts
  else
    let ts := ts.drop 1
    if peek ts = .rparen then failAt (.oneArgument name) ts
    else if startsKeyword ts then failAt (.noKeywords name) ts
    else
      let (c, ts) ← reducerArgument source name ts
      if peek ts = .comma then failAt (.oneArgument name) ts
      else
        let ts ← expect .rparen ts
        return ({ c with
          reduction := some { reducer }
          provenance := origin ("call_" ++ name) }, ts)

/-! Statements -/

def topLevel (source : List Char) (ts : List Token) : Attempt (Comprehension × List Token) :=
  match peek ts with
  | .lbracket => bracketed source .list ts
  | .lbrace => braced source ts
  | .lparen => bracketed source .generator ts
  | .ident _ => reducerCall source ts
  | other => failAt (.statementStart other) ts

def skipSeparators (ts : List Token) : List Token :=
  ts.dropWhile fun t => isSeparator t.kind

def isImport : TokenKind → Bool
  | .ident name => name = "import" || name = "from"
  | _ => false

def endsImport (k : TokenKind) : Bool :=
  isSeparator k || k = .eof

/-- The tokens behind the import statements at the front. -/
def skipImports : (fuel : Nat) → List Token → Attempt (List Token)
  | 0, _ => Expr.outOfFuel
  | fuel + 1, ts =>
    if isImport (peek ts) then
      let rest := ts.drop 1
      if peek rest = .newline ∨ peek rest = .eof then failAt .moduleName rest
      else skipImports fuel (skipSeparators (rest.dropWhile fun t => !endsImport t.kind))
    else .ok ts

/-- The name that a statement assigns to, if it does, and what is assigned. -/
def assignment (ts : List Token) : Option String × List Token :=
  match ts with
  | ⟨.ident name, _⟩ :: ⟨.assign, _⟩ :: rest => (some name, rest)
  | _ => (none, ts)

def assigned (target : Option String) (c : Comprehension) : Comprehension :=
  match target with
  | some name => { c with provenance := c.provenance.insert "target" name }
  | none => c

/-- One statement: imports, then a comprehension or reduction, perhaps assigned to a name. -/
def statement (source : List Char) (ts : List Token) : Attempt Comprehension := do
  let ts ← skipImports (ts.length + 1) (skipSeparators ts)
  if peek ts = .eof then failAt .emptyInput ts
  else
    let (target, ts) := assignment ts
    let (c, ts) ← topLevel source ts
    let ts := skipSeparators ts
    if peek ts = .eof then return assigned target c
    else failAt (.afterStatement (peek ts)) ts

/-- The comprehension that a source text states. -/
def parse (source : String) : Attempt Comprehension :=
  match Token.scan source.toList with
  | .error e => .error (.ofScan e)
  | .ok ts => statement source.toList ts

end Comprehend.Comprehension
