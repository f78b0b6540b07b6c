import GraphqlFragments.Sdl.Value
/-!
# Definitions of the type system

The readers of the single definitions start after the keyword. An extension has
the form of the definition it extends, but may not be empty.
-/

namespace GraphqlFragments.Sdl

/-- The words that begin a definition. -/
def definitionKeywords : List String :=
  ["directive", "enum", "extend", "fragment", "input", "interface", "type", "query",
    "mutation", "subscription", "\x7b", "scalar", "schema", "union"]

/-- The places at which a directive can be allowed. -/
def directiveLocationNames : List String :=
  ["QUERY", "MUTATION", "SUBSCRIPTION", "FIELD", "FRAGMENT_DEFINITION", "FRAGMENT_SPREAD",
    "INLINE_FRAGMENT", "VARIABLE_DEFINITION", "SCHEMA", "SCALAR", "OBJECT",
    "FIELD_DEFINITION", "ARGUMENT_DEFINITION", "INTERFACE", "UNION", "ENUM", "ENUM_VALUE",
    "INPUT_OBJECT", "INPUT_FIELD_DEFINITION"]

def operationOf : String → Option Operation
  | "query" => some .query
  | "mutation" => some .mutation
  | "subscription" => some .subscription
  | _ => none

namespace Parser

/-! ## Parts of definitions -/

def isDescribed (kind : TokenKind) : Bool := kind = .name || kind = .string

def skipDescription : Parser Unit := do
  if ← isAt .string then
    let _ ← advance

/-- Directives, and whether there are any. -/
def someDirectives : Parser Bool := do
  let found ← isAtMark '@'
  directives
  return found

/-- A name, with separators in front of it or not. -/
def separatedName? (separator : Char) : Parser (Option Unit) := do
  let _ ← many (· = .punctuator separator) advance
  if !(← isAt .name) then return none
  let _ ← advance
  if !definitionKeywords.contains (← word) then deeper
  return some ()

/-- Names up to one that begins a definition. A separator after the last name
does no harm, and it also makes a name of such a word. -/
def separatedNames (separator : Char) (what : Wanted) : Parser Unit :=
  nested do
    let some _ ← separatedName? separator | want what
    let _ ← collect do
      if definitionKeywords.contains (← word) then return none
      separatedName? separator

def inputValues (closing : Char) : Parser Unit := do
  let values ← nested <| many isDescribed do
    skipDescription
    let _ ← name .name
    if !(← skipMark ':') then want .name
    let _ ← type
    if ← skipMark '=' then value
    directives
    deeper
  if values.isEmpty then want .inputValues
  closeMark closing

def fieldDefinition : Parser FieldDefinition := do
  skipDescription
  let fieldName ← name .name
  if ← skipMark '(' then inputValues ')'
  if !(← skipMark ':') then want .fieldType
  let fieldType ← type
  directives
  return ⟨fieldName, fieldType⟩

/-- The fields after their opening brace; there may be none. -/
def fieldDefinitions : Parser (List FieldDefinition) := do
  let fields ← many isDescribed fieldDefinition
  closeMark '}'
  return fields

/-- The interfaces of a type, and whether it names any. -/
def interfaces : Parser Bool := do
  if (← word) = "implements" then
    let _ ← advance
    separatedNames '&' .interfaces
    return true
  else return false

def enumValues : Parser Unit := do
  let values ← nested <| many isDescribed do
    skipDescription
    if ["true", "false", "null"].contains (← word) then refuse .reservedEnumValue
    let _ ← name .name
    directives
    deeper
  if values.isEmpty then want .enumValues
  closeMark '}'

/-- An entry of a schema definition. An opening brace may stand before each. -/
def rootOperation? : Parser (Option RootEntry) := do
  let _ ← skipMark '{'
  if !(← isAt .name) then return none
  let some operation := operationOf (← word) | want .knownOperationType
  let _ ← advance
  if !(← skipMark ':') then want .rootTypeName
  let typeName ← if ← isAt .name then some <$> advance else pure none
  deeper
  return some ⟨operation, typeName⟩

def noDirectiveLocation {α : Type} : Parser α := do
  want (if ← isAt .name then .knownDirectiveLocation else .directiveLocations)

/-- A place for a directive, given as the number of bars in front of it. -/
def directiveLocation? : Parser (Option Nat) := do
  let bars ← many (· = .punctuator '|') advance
  if (← isAt .name) && directiveLocationNames.contains (← word) then
    let _ ← advance
    return some bars.length
  if bars.isEmpty then return none
  noDirectiveLocation

/-- The places that a directive is allowed at. A bar may stand before the first
one and between any two; a second bar there is reported after the last. -/
def directiveLocations : Parser Unit := do
  if !(← isAt .name) && !(← isAtMark '|') then want .knownDirectiveLocation
  let _ ← skipMark '|'
  match ← collect directiveLocation? with
  | 0 :: bars => if bars.any (· > 1) then noDirectiveLocation
  | _ => noDirectiveLocation

/-! ## Definitions

Each reader gives what the definition says about types, or nothing if it has no
effect. A body is a part that keeps an extension from being empty.
-/

def objectDefinition (extending : Bool) : Parser (Option Definition) := do
  let typeName ← name (if extending then .name else .typeName)
  let implementing ← interfaces
  if !implementing && !extending && (← isAt .name) then refuse .unexpectedName
  let directed ← someDirectives
  let braced ← skipMark '{'
  let fields ← if braced then fieldDefinitions else pure []
  if !extending then return some (.object typeName fields)
  if !implementing && !directed && !braced then want .objectExtensionBody
  return some (.objectExtension typeName fields)

def interfaceDefinition (extending : Bool) : Parser (Option Definition) := do
  let typeName ← name .name
  let implementing ← interfaces
  let directed ← someDirectives
  let braced ← skipMark '{'
  if braced then
    let _ ← fieldDefinitions
  if !extending then return some (.interface typeName)
  if !implementing && !directed && !braced then refuse .interfaceExtensionBody
  return none

def scalarDefinition (extending : Bool) : Parser (Option Definition) := do
  let typeName ← name .name
  let directed ← someDirectives
  if !extending then return some (.scalar typeName)
  if !directed then want .directives
  return none

def unionDefinition (extending : Bool) : Parser (Option Definition) := do
  let typeName ← name .name
  let directed ← someDirectives
  let listed ← skipMark '='
  if listed then separatedNames '|' .unionMembers
  if !extending then return some (.union typeName)
  if !directed && !listed then want .unionExtensionBody
  return none

def enumDefinition (extending : Bool) : Parser (Option Definition) := do
  let typeName ← name .name
  let directed ← someDirectives
  let braced ← skipMark '{'
  if braced then enumValues
  if !extending then return some (.enum typeName)
  if !directed && !braced then want .enumExtensionBody
  return none

def inputDefinition (extending : Bool) : Parser (Option Definition) := do
  let typeName ← name .name
  let directed ← someDirectives
  let braced ← skipMark '{'
  if braced then inputValues '}'
  if !extending then return some (.input typeName)
  if !directed && !braced then want .inputExtensionBody
  return none

def schemaDefinition (extending : Bool) : Parser (Option Definition) := do
  let directed ← someDirectives
  let braced ← isAtMark '{'
  if !braced && !extending then want .rootOperations
  if !braced && !directed then want .schemaExtensionBody
  if !braced then return some (.schemaExtension [])
  let roots ← nested (collect rootOperation?)
  if roots.isEmpty then want .operationType
  closeMark '}'
  return some (if extending then .schemaExtension roots else .schema roots)

def directiveDefinition : Parser (Option Definition) := do
  if !(← skipMark '@') then want .directiveMark
  let _ ← name .name
  if ← skipMark '(' then inputValues ')'
  if (← word) = "repeatable" then
    let _ ← advance
  if (← word) ≠ "on" then want .directiveLocations
  let _ ← advance
  directiveLocations
  return none

end Parser

end GraphqlFragments.Sdl
