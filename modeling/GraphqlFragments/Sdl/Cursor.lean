import GraphqlFragments.Sdl.Token
/-!
# Reading tokens

A cursor stands before a token of the document. Commas are passed over and a
faulty token ends the reading as soon as the cursor comes to it, so the current
token is never one of these. The first problem is the only one.
-/

namespace GraphqlFragments.Sdl

structure Cursor where
  /-- The current token and all that follow. -/
  ahead : List Token
  /-- Bytes in the document. -/
  size : Nat
  /-- Open constructs and repetitions. -/
  depth : Nat
  deriving DecidableEq, Repr

/-- How deep constructs may nest, and how often the parts of one may repeat. -/
def nestingLimit : Nat := 500

namespace Cursor

/-- At the end of the document the current token is an empty one. -/
def current (c : Cursor) : Token := c.ahead.head?.getD ⟨.finish, "", c.size⟩

/-- The next token to be read after the current one. Faulty tokens are
overlooked here, commas are not. -/
def second (c : Cursor) : Token :=
  let isFaulty (t : Token) : Bool := match t.kind with | .faulty _ _ => true | _ => false
  (c.ahead.tail.find? fun t => !isFaulty t).getD ⟨.finish, "", c.size⟩

/-- Drops commas, and fails if a faulty token follows. -/
def settle : List Token → Except Fault (List Token)
  | [] => .ok []
  | t :: rest =>
      match t.kind with
      | .punctuator ',' => settle rest
      | .faulty problem located =>
          .error ⟨if located then t.offset else 0, t.text, .lexical problem⟩
      | _ => .ok (t :: rest)

/-- Stands before the first token of a text. -/
def start (text : List Char) : Except Fault Cursor := do
  let ahead ← settle (tokens 0 text)
  return ⟨ahead, Text.utf8Size text, 0⟩

end Cursor

/-- Reads a part of the document from the cursor on. -/
abbrev Parser := StateT Cursor (Except Fault)

namespace Parser

def current : Parser Token := return (← get).current

def kind : Parser TokenKind := return (← current).kind

def word : Parser String := return (← current).text

def second : Parser Token := return (← get).second

/-- Goes to the next token and gives the text of the one it leaves. -/
def advance : Parser String := do
  let c ← get
  let ahead ← Cursor.settle c.ahead.tail
  set { c with ahead }
  return c.current.text

/-- Reports a problem at the current token. -/
def refuse {α : Type} (problem : SyntaxProblem) : Parser α := do
  let t ← current
  throw ⟨t.offset, t.text, .grammatical problem⟩

def want {α : Type} (what : Wanted) : Parser α := refuse (.wanted what)

def isAt (kind : TokenKind) : Parser Bool := return (← Parser.kind) = kind

def isAtMark (mark : Char) : Parser Bool := isAt (.punctuator mark)

/-- Passes over a punctuator if it is there, and says whether it was. -/
def skipMark (mark : Char) : Parser Bool := do
  if ← isAtMark mark then
    let _ ← advance
    return true
  else return false

def closeMark (mark : Char) : Parser Unit := do
  if !(← skipMark mark) then
    let found ← word
    refuse (.unclosed mark (if found = "" then "EOF" else found))

def name (what : Wanted) : Parser String := do
  if ← isAt .name then advance else want what

/-! ## Nesting and repetition -/

def tooDeep {α : Type} : Parser α := do
  throw ⟨(← current).offset, "", .grammatical .nestingLimit⟩

def deeper : Parser Unit := do
  modify fun c => { c with depth := c.depth + 1 }
  if (← get).depth > nestingLimit then tooDeep

/-- Comes back to the depth at which the part began. -/
def nested {α : Type} (part : Parser α) : Parser α := do
  let depth := (← get).depth
  let a ← part
  modify fun c => { c with depth }
  return a

def collectWithin {α : Type} : Nat → Parser (Option α) → Parser (List α)
  | 0, _ => return []
  | rounds + 1, step => do
      match ← step with
      | none => return []
      | some a => return a :: (← collectWithin rounds step)

/-- Repeats a step until it yields nothing. A step that yields something reads a
token, so the tokens left bound the rounds. -/
def collect {α : Type} (step : Parser (Option α)) : Parser (List α) := do
  collectWithin ((← get).ahead.length + 1) step

/-- Reads a part for as long as the current token is of a kind that begins one.
-/
def many {α : Type} (begins : TokenKind → Bool) (part : Parser α) : Parser (List α) :=
  collect do if begins (← kind) then return some (← part) else return none

end Parser

end GraphqlFragments.Sdl
