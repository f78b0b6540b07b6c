import GraphqlFragments.Sdl.TypeDefinition
/-!
# Operations and fragments

A document may also hold operations and fragments. They are read for their form
and say nothing about types.
-/

namespace GraphqlFragments.Sdl.Parser

def isSelectionStart (kind : TokenKind) : Bool := kind = .name || kind = .spread

def typeCondition : Parser Unit := do
  if !(← isAt .name) then want .typeCondition
  if (← word) ≠ "on" then refuse .noOnKeyword
  let _ ← advance
  if ← isAt .name then
    let _ ← advance

/-- A field, after its alias if it has one; `inner` reads its selection set. -/
def fieldSelection (inner : Parser Unit) : Parser Unit := do
  if (← second).kind = .punctuator ':' then
    let _ ← advance
    let _ ← advance
  let _ ← name .name
  if ← skipMark '(' then arguments
  directives
  if ← isAtMark '{' then inner

/-- What may stand behind the dots of an inline fragment. -/
def startsInlineFragment : TokenKind → Bool
  | .name | .punctuator '@' | .punctuator '{' => true
  | _ => false

/-- A fragment spread, or an inline fragment whose selections `inner` reads. -/
def spreadSelection (inner : Parser Unit) : Parser Unit := do
  let next ← second
  if next.kind = .name && next.text ≠ "on" then
    let _ ← advance
    let _ ← advance
    directives
  else
    if !startsInlineFragment next.kind then want .spread
    let _ ← advance
    if ← isAt .name then typeCondition
    directives
    if !(← isAtMark '{') then want .fragmentSelectionSet
    inner

/-- A selection set, at its opening brace, with `levels` sets inside each other
at most; see `typeWithin`. -/
def selectionSetWithin : (levels : Nat) → Parser Unit
  | 0 => tooDeep
  | levels + 1 => do
      let _ ← advance
      nested do
        deeper
        let selections ← many isSelectionStart do
          if ← isAt .name then fieldSelection (selectionSetWithin levels)
          else spreadSelection (selectionSetWithin levels)
        if selections.isEmpty && !(← isAtMark '{') then want .selections
      closeMark '}'

def selectionSet : Parser Unit := selectionSetWithin (nestingLimit + 1)

/-- The variables of an operation, after their opening parenthesis. -/
def variableDefinitions : Parser Unit := do
  if !(← isAtMark '$') then want .variableDefinition
  let _ ← nested <| many (· = .punctuator '$') do
    let _ ← advance
    let _ ← name .name
    if !(← skipMark ':') then want .name
    let _ ← type
    if ← skipMark '=' then value
    directives
    deeper
  closeMark ')'

/-- An operation, or the selection set that stands for a query. -/
def operation : Parser Unit := do
  if ← isAt .string then want .operation
  if ← isAt .name then
    let _ ← advance
    if ← isAt .name then
      let _ ← advance
    if ← skipMark '(' then variableDefinitions
    directives
    if !(← isAtMark '{') then want .selectionSet
  selectionSet

/-- A fragment, at the word that introduces it. -/
def fragment : Parser Unit := do
  let _ ← advance
  if !(← isAt .name) then want .fragmentName
  if (← word) = "on" then refuse .fragmentNamedOn
  let _ ← advance
  typeCondition
  directives
  if !(← isAtMark '{') then want .selectionSet
  selectionSet

end GraphqlFragments.Sdl.Parser
