import StackHeap.Command.Split
import StackHeap.Command.SyntaxError
import StackHeap.Text.Blank
import StackHeap.Types

/-! # Statements

The shapes that a command line can have, told apart by tokens alone:

* an object, `type name = (attributes);` or `type name = new constructor(attributes);`
* an array, `type[] name = {elements};`
* a scalar, `type name = value;`
* an assignment, `name = value;`
* entering and leaving a frame, `enter name(…);` and `leave;`

Values, attributes and elements are kept as the text they were written in; giving them types is
the business of the typing rules.  The first fault from the left is reported, an empty or
unterminated line before all others.

Readers take the tokens that are left and return those they leave.  The list of tokens of a
line ends with `finish`, which no reader takes. -/

namespace StackHeap.Command

open Text

/-! ### Shapes -/

/-- The parts of a declaration, as written. -/
inductive Declaration where
  | scalar (typeName name : String) (value : List Char)
  | object (typeName name : String) (constructor? : Option String) (attributes : List Char)
  | array (elementType name : String) (elements : List Char)
deriving DecidableEq, Repr

/-- The variable that a declaration introduces. -/
def Declaration.name : Declaration → String
  | scalar _ name _ => name
  | object _ name _ _ => name
  | array _ name _ => name

/-- One attribute of a constructor: a name, a value, and a type unless it is left to the value. -/
structure Attribute where
  typeName : Option String
  name : String
  value : List Char
deriving DecidableEq, Repr

/-- What a right-hand side denotes. -/
inductive RightSide where
  | variable (name : String)
  | null
  | construct (typeName : String) (attributes : List Char)
  /-- Anything else: a literal, typed later against its target. -/
  | literal (text : List Char)
deriving DecidableEq, Repr

/-- The kinds of command lines, with their parts. -/
inductive LineKind where
  | enter (name : String)
  | leave
  | assignment (target : String) (value : List Char)
  | declaration
deriving DecidableEq, Repr

/-! ### Single tokens -/

/-- The tokens of a text, or its lexical fault as a syntax error. -/
def readTokens (cs : List Char) : Except SyntaxError (List Token) :=
  (tokenize cs).mapError .lex

/-- The next token. -/
def peek (ts : List Token) : Token := ts.head?.getD default

/-- The error for a token that is no identifier: words and numbers are called invalid. -/
def notIdentifier (what : String) (t : Token) : SyntaxError :=
  match t.lexeme with
  | .number _ | .keyword _ => .invalidIdentifier what t
  | _ => .expected what t

/-- Takes an identifier. -/
def identifier (what : String) (ts : List Token) : Except SyntaxError (String × List Token) :=
  match (peek ts).lexeme with
  | .ident name => .ok (name, ts.tail)
  | _ => .error (notIdentifier what (peek ts))

/-- Takes a mark and returns its place. -/
def mark (m : Mark) (what : String) (ts : List Token) : Except SyntaxError (Span × List Token) :=
  if (peek ts).lexeme = .mark m then .ok ((peek ts).span, ts.tail)
  else .error (.expected what (peek ts))

/-- Takes the semicolon that ends a line, with nothing after it. -/
def lineEnd (ts : List Token) : Except SyntaxError Unit := do
  let (_, ts) ← mark .semicolon "';'" ts
  if (peek ts).lexeme = .finish then .ok () else .error (.trailingTokens (peek ts))

/-! ### Values and brackets -/

/-- Takes the tokens of a value: up to a semicolon or the end.  An equals sign outside all
brackets is a chained assignment. -/
def valueTokens (depth : Nat) : List Token → Except SyntaxError (List Token × List Token)
  | [] => .ok ([], [])
  | t :: ts =>
    match t.lexeme with
    | .finish | .mark .semicolon => .ok ([], t :: ts)
    | .mark .equals =>
      if depth = 0 then .error (.chainedAssignment t.span)
      else (valueTokens depth ts).map fun r => (t :: r.1, r.2)
    | .mark (.opening _) => (valueTokens (depth + 1) ts).map fun r => (t :: r.1, r.2)
    | .mark (.closing _) => (valueTokens (depth - 1) ts).map fun r => (t :: r.1, r.2)
    | _ => (valueTokens depth ts).map fun r => (t :: r.1, r.2)

/-- The range from the first to the last of some tokens. -/
def spanOf? (ts : List Token) : Option Span := do
  let first ← ts.head?
  let last ← ts.getLast?
  return ⟨first.span.start, last.span.stop⟩

/-- Takes a value, which has at least one token, and returns its tokens and its range. -/
def value (ts : List Token) : Except SyntaxError (List Token × Span × List Token) := do
  let (taken, ts) ← valueTokens 0 ts
  match spanOf? taken with
  | some s => .ok (taken, s, ts)
  | none => .error .emptyValue

/-- Takes tokens through the bracket that closes one of kind `b`, `depth` of which were opened
inside, and returns the place of the closing bracket.  Other kinds of brackets do not count. -/
def closing? (b : Bracket) (depth : Nat) : List Token → Option (Span × List Token)
  | [] => none
  | t :: ts =>
    if t.lexeme = .finish then none
    else if t.lexeme = .mark (.opening b) then closing? b (depth + 1) ts
    else if t.lexeme = .mark (.closing b) then
      if depth = 0 then some (t.span, ts) else closing? b (depth - 1) ts
    else closing? b depth ts

/-- Takes a bracketed part and returns the range strictly between the brackets. -/
def bracketed (b : Bracket) (what : String) (ts : List Token) :
    Except SyntaxError (Span × List Token) := do
  let (opened, ts) ← mark (.opening b) what ts
  match closing? b 0 ts with
  | some (closed, ts) => .ok (⟨opened.stop, closed.start⟩, ts)
  | none => .error (.unclosed b opened)

/-! ### Attributes and elements -/

/-- Reads an attribute, `type name = value` or `name = value`. -/
def readAttribute (cs : List Char) : Except SyntaxError Attribute := do
  let ts ← readTokens cs
  let (first, ts) ← identifier "an attribute name" ts
  let (typeName, name, ts) ← match identifier "an attribute name" ts with
    | .ok (name, ts) => .ok (some first, name, ts)
    | .error _ => .ok (none, first, ts)
  let (_, ts) ← mark .equals "'=' after the attribute name" ts
  let (_, span, ts) ← value ts
  if (peek ts).lexeme = .finish then .ok ⟨typeName, name, slice cs span⟩
  else .error (.trailingTokens (peek ts))

/-- The attribute that a text is; whatever is wrong with it, it is called malformed. -/
def Attribute.ofText (cs : List Char) : Except SyntaxError Attribute :=
  (readAttribute cs).mapError fun _ => .malformedAttribute (String.ofList (trim cs))

/-- Checks the parts of a list from the `index`-th on. -/
def checkAttributes (index : Nat) : List (List Char) → Except SyntaxError Unit
  | [] => .ok ()
  | part :: parts =>
    if trim part = [] then .error (.emptyAttribute index)
    else do
      let _ ← Attribute.ofText part
      checkAttributes (index + 1) parts

/-- Takes a bracketed list of attributes and returns its trimmed text. -/
def attributeList (cs : List Char) (ts : List Token) :
    Except SyntaxError (List Char × List Token) := do
  let (inner, ts) ← bracketed .round "'(' to open the attribute list" ts
  let attributes := trim (slice cs inner)
  if attributes = [] then .error .emptyAttributeList
  else do
    checkAttributes 1 (splitTopLevel attributes)
    .ok (attributes, ts)

/-- Checks that no part of a list is blank, from the `index`-th on. -/
def checkElements (index : Nat) : List (List Char) → Except SyntaxError Unit
  | [] => .ok ()
  | part :: parts =>
    if trim part = [] then .error (.emptyElement index) else checkElements (index + 1) parts

/-! ### Declarations -/

/-- The rest of an object declaration, after the equals sign. -/
def objectBody (cs : List Char) (typeName name : String) (ts : List Token) :
    Except SyntaxError Declaration := do
  let (constructor?, ts) ←
    if (peek ts).lexeme = .keyword .new then
      (identifier "a constructor name after 'new'" ts.tail).map fun r => (some r.1, r.2)
    else .ok (none, ts)
  let (attributes, ts) ← attributeList cs ts
  lineEnd ts
  .ok (.object typeName name constructor? attributes)

/-- The rest of an array declaration, after the equals sign. -/
def arrayBody (cs : List Char) (elementType name : String) (ts : List Token) :
    Except SyntaxError Declaration := do
  let (inner, ts) ← bracketed .curly "'\x7b' to open the element list" ts
  lineEnd ts
  let elements := trim (slice cs inner)
  if elements = [] then .error .emptyArray
  else do
    checkElements 1 (splitTopLevel elements)
    .ok (.array elementType name elements)

/-- Whether tokens are a single character in single quotes. -/
def isOneChar : List Token → Bool
  | [t] => match t.lexeme with
    | .charLiteral text => text.toList.length = 1
    | _ => false
  | _ => false

/-- The rest of a scalar declaration, after the equals sign. -/
def scalarBody (cs : List Char) (typeName name : String) (ts : List Token) :
    Except SyntaxError Declaration := do
  let (taken, span, ts) ← value ts
  lineEnd ts
  let text := slice cs span
  if typeName = "char" && !isOneChar taken then .error (.charLiteral (String.ofList text))
  else .ok (.scalar typeName name text)

/-- Reads a declaration off its tokens. -/
def declaration (cs : List Char) (ts : List Token) : Except SyntaxError Declaration := do
  let (typeName, ts) ← identifier "a type name" ts
  let isArray := (peek ts).lexeme = .mark (.opening .square)
  let ts ← if isArray then (mark (.closing .square) "']' after '['" ts.tail).map (·.2) else .ok ts
  let (name, ts) ← identifier "a variable name" ts
  let (_, ts) ← mark .equals "'=' after the variable name" ts
  if isArray then arrayBody cs typeName name ts
  else if (peek ts).lexeme = .mark (.opening .round) || (peek ts).lexeme = .keyword .new then
    objectBody cs typeName name ts
  else scalarBody cs typeName name ts

/-! ### Lines -/

/-- Requires a line that is not blank and ends in a semicolon. -/
def terminated (cs : List Char) : Except SyntaxError Unit :=
  let line := trim cs
  if line = [] then .error .empty
  else if line.getLast? = some ';' then .ok ()
  else .error .missingTerminator

/-- The declaration that a line is. -/
def checkDeclaration (cs : List Char) : Except SyntaxError Declaration := do
  terminated cs
  declaration cs (← readTokens cs)

/-- Reads a line that enters a frame, after the word `enter`. -/
def enterLine (ts : List Token) : Except SyntaxError LineKind := do
  let (name, ts) ← identifier "a frame name after 'enter'" ts
  let (_, ts) ← bracketed .round "'(' after the frame name" ts
  lineEnd ts
  .ok (.enter name)

/-- Reads an assignment, after its equals sign. -/
def assignmentLine (cs : List Char) (target : String) (ts : List Token) :
    Except SyntaxError LineKind := do
  let (_, span, ts) ← value ts
  lineEnd ts
  .ok (.assignment target (slice cs span))

/-- The kind of command that tokens are. -/
def classifyTokens (cs : List Char) (ts : List Token) : Except SyntaxError LineKind :=
  match (peek ts).lexeme with
  | .keyword .enter => enterLine ts.tail
  | .keyword .leave => (lineEnd ts.tail).map fun _ => .leave
  | .ident name =>
    if (Primitive.ofName? name).isNone && (peek ts.tail).lexeme = .mark .equals then
      assignmentLine cs name ts.tail.tail
    else .ok .declaration
  | _ => .ok .declaration

/-- The kind of command that a line is.  A line that cannot be told apart counts as a
declaration, whose check then reports what is wrong. -/
def classify (cs : List Char) : Except SyntaxError LineKind :=
  match terminated cs, readTokens cs with
  | .ok _, .ok ts => classifyTokens cs ts
  | _, _ => .ok .declaration

/-- What a right-hand side denotes. -/
def rightSide (cs : List Char) : Except SyntaxError RightSide := do
  let text := trim cs
  let ts ← readTokens text
  match ts.map Token.lexeme with
  | [.ident name, .finish] => .ok (.variable name)
  | [.keyword .null, .finish] => .ok .null
  | .keyword .new :: _ => do
    let (typeName, ts) ← identifier "a constructor name after 'new'" ts.tail
    let (attributes, ts) ← attributeList text ts
    if (peek ts).lexeme = .finish then .ok (.construct typeName attributes)
    else .error (.expected "end of value after ')'" (peek ts))
  | _ => .ok (.literal text)

end StackHeap.Command
