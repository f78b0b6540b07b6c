import GraphqlFragments.Sdl.Cursor
import GraphqlFragments.Sdl.Definition
/-!
# Types, values and directives

The parts that definitions of all sorts share. Values and directives are read
for their form only.
-/

namespace GraphqlFragments.Sdl.Parser

def isTypeStart (kind : TokenKind) : Bool := kind = .name || kind = .punctuator '['

/-- A type in `levels` lists at most. Every list counts towards the nesting
limit, so more levels than that are never needed. -/
def typeWithin : (levels : Nat) → Parser TypeExpr
  | 0 => tooDeep
  | levels + 1 => do
      if ← skipMark '[' then
        let item ← nested do
          deeper
          if !isTypeStart (← kind) then want .itemType
          typeWithin levels
        closeMark ']'
        return .list item (← skipMark '!')
      else
        let name ← advance
        return .named name (← skipMark '!')

/-- What follows a colon: a type. -/
def type : Parser TypeExpr := do
  if !isTypeStart (← kind) then want .type
  typeWithin (nestingLimit + 1)

/-- A value in `levels` lists and objects at most; see `typeWithin`. A list may
end with the document, and the last member of an object may lack its value. -/
def valueWithin : (levels : Nat) → Parser Unit
  | 0 => tooDeep
  | levels + 1 => do
      match ← kind with
      | .punctuator '$' => do
          let _ ← advance
          let _ ← name .name
      | .punctuator '[' => do
          let _ ← advance
          let _ ← many (fun kind => kind ≠ .punctuator ']' && kind ≠ .finish) <|
            nested do
              deeper
              valueWithin levels
          let _ ← skipMark ']'
      | .punctuator '{' => do
          let _ ← advance
          nested do
            match ← kind with
            | .name => deeper
            | .punctuator '}' => return
            | _ => want .objectValue
            let _ ← collect do
              if !(← isAt .name) then return none
              let _ ← advance
              if !(← skipMark ':') then return none
              valueWithin levels
              deeper
              return some ()
          if !(← skipMark '}') then want .objectValueEnd
      | .int | .float | .string | .name => do
          let _ ← advance
      | _ => want .value

def value : Parser Unit := valueWithin (nestingLimit + 1)

/-- The arguments after their opening parenthesis. A name without a value may
stand after them. -/
def arguments : Parser Unit := do
  let given ← nested <| collect do
    if !(← isAt .name) then return none
    let _ ← advance
    if !(← skipMark ':') then return none
    value
    deeper
    return some ()
  if given.isEmpty then want .argument
  closeMark ')'

def directives : Parser Unit := do
  let _ ← many (· = .punctuator '@') do
    let _ ← advance
    let _ ← name .name
    if ← skipMark '(' then arguments

end GraphqlFragments.Sdl.Parser
