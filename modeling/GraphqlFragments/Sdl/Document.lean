import GraphqlFragments.Sdl.Executable
/-!
# Schema documents

A document is a sequence of definitions, each of which may follow a description.
-/

namespace GraphqlFragments.Sdl

namespace Parser

/-- The reader of the definition that a keyword begins. -/
def definitionBody? (extending : Bool) : String → Option (Parser (Option Definition))
  | "schema" => some (schemaDefinition extending)
  | "scalar" => some (scalarDefinition extending)
  | "type" => some (objectDefinition extending)
  | "interface" => some (interfaceDefinition extending)
  | "union" => some (unionDefinition extending)
  | "enum" => some (enumDefinition extending)
  | "input" => some (inputDefinition extending)
  | "directive" => if extending then none else some directiveDefinition
  | _ => none

/-- An extension, at its first word. -/
def extension : Parser (Option Definition) := do
  match definitionBody? true (← second).text with
  | none => refuse .unknownExtension
  | some body => do
      let _ ← advance
      let _ ← advance
      body

/-- The word that says what a definition is. -/
def definitionWord : Parser String := do
  match ← kind with
  | .string => return (← second).text
  | .name | .punctuator '{' => word
  | _ => want .definitionStart

def definition : Parser (Option Definition) := do
  let keyword ← definitionWord
  if !definitionKeywords.contains keyword then want .definition
  if keyword = "extend" then extension
  else if keyword = "fragment" then
    fragment
    return none
  else
    match definitionBody? false keyword with
    | none => do
        operation
        return none
    | some body => do
        skipDescription
        let _ ← advance
        body

def document : Parser Document := do
  return (← many (· ≠ .finish) definition).filterMap id

end Parser

/-- The definitions of a text, or its first fault. -/
def Document.parse (text : String) : Except Fault Document := do
  let start ← Cursor.start text.toList
  let (definitions, _) ← Parser.document.run start
  return definitions

end GraphqlFragments.Sdl
