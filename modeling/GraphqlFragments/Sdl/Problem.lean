/-!
# Problems of a schema document

What can be wrong with the text of a schema document, first in its tokens, then
in its grammar, with the wording of each.
-/

namespace GraphqlFragments.Sdl

inductive LexicalProblem
  | unexpectedCharacter (c : Char)
  | characterAfterMinus (c : Char)
  | leadingZero
  | unfinishedFloat
  | noFractionDigit (c : Char)
  | noExponentDigit (c : Char) (signed : Bool)
  | integerSuffix (c : Char)
  | floatSuffix (c : Char)
  | unfinishedSpread
  | unclosedString
  | loneQuote
  | lineBreakInString
  | unknownEscape
  | shortUnicodeEscape
  | badUnicodeEscape
  | surrogateEscape
  deriving DecidableEq, Repr

namespace LexicalProblem

private def ticked (c : Char) : String := "Unexpected character `" ++ c.toString ++ "`"

def message : LexicalProblem → String
  | unexpectedCharacter c => "Unexpected character \"" ++ c.toString ++ "\""
  | characterAfterMinus c => ticked c
  | leadingZero => "Numbers must not have non-significant leading zeroes"
  | unfinishedFloat => "Unexpected EOF in float value"
  | noFractionDigit c => ticked c ++ ", expected fractional digit"
  | noExponentDigit c true => ticked c ++ ", expected exponent digit"
  | noExponentDigit c false => ticked c ++ ", expected exponent digit or sign"
  | integerSuffix c => ticked c ++ " as integer suffix"
  | floatSuffix c => ticked c ++ " as float suffix"
  | unfinishedSpread => "Unterminated spread operator"
  | unclosedString => "unterminated string value"
  | loneQuote => "unexpected end of data while lexing string value"
  | lineBreakInString => "unexpected line terminator"
  | unknownEscape => "unexpected escaped character"
  | shortUnicodeEscape => "incomplete unicode escape sequence"
  | badUnicodeEscape => "invalid unicode escape sequence"
  | surrogateEscape =>
      "surrogate code point is invalid in unicode escape sequence " ++
        "(paired surrogate not supported yet: " ++
        "https://github.com/apollographql/apollo-rs/issues/657)"

end LexicalProblem

/-- What the grammar asks for at a place where something else stands. -/
inductive Wanted
  | definitionStart
  | definition
  | name
  | typeName
  | objectExtensionBody
  | directives
  | unionMembers
  | unionExtensionBody
  | enumValues
  | enumExtensionBody
  | inputExtensionBody
  | operationType
  | knownOperationType
  | rootTypeName
  | rootOperations
  | schemaExtensionBody
  | directiveMark
  | directiveLocations
  | knownDirectiveLocation
  | interfaces
  | fieldType
  | type
  | itemType
  | inputValues
  | argument
  | objectValue
  | objectValueEnd
  | value
  | operation
  | variableDefinition
  | selectionSet
  | fragmentSelectionSet
  | selections
  | spread
  | typeCondition
  | fragmentName
  deriving DecidableEq, Repr

def Wanted.phrase : Wanted → String
  | definitionStart => "a StringValue, Name or OperationDefinition"
  | definition => "definition"
  | name => "a Name"
  | typeName => "a name"
  | objectExtensionBody => "an Implements Interface, Directives or a Fields Definition"
  | directives => "Directives"
  | unionMembers => "Union Member Types"
  | unionExtensionBody => "Directives or Union Member Types"
  | enumValues => "Enum Value Definition"
  | enumExtensionBody => "Directive or Enum Values Definition"
  | inputExtensionBody => "Directives or an Input Fields Definition"
  | operationType => "an Operation Type"
  | knownOperationType => "either a 'mutation', a 'query', or a 'subscription'"
  | rootTypeName => "a Name Type"
  | rootOperations => "Root Operation Type Definition"
  | schemaExtensionBody => "directives or Root Operation Type Definition"
  | directiveMark => "@ symbol"
  | directiveLocations => "Directive Locations"
  | knownDirectiveLocation => "valid Directive Location"
  | interfaces => "an Object Type Definition"
  | fieldType => "a type"
  | type => "a Type"
  | itemType => "item type"
  | inputValues => "an Input Value Definition"
  | argument => "an Argument"
  | objectValue => "Object Value"
  | objectValueEnd => "\x7d"
  | value => "a valid Value"
  | operation => "an Operation Type or a Selection Set"
  | variableDefinition => "a Variable Definition"
  | selectionSet => "a Selection Set"
  | fragmentSelectionSet => "Selection Set"
  | selections => "at least one Selection in Selection Set"
  | spread => "an Inline Fragment or a Fragment Spread"
  | typeCondition => "Type Condition"
  | fragmentName => "Fragment Name"

inductive SyntaxProblem
  | wanted (what : Wanted)
  | unclosed (mark : Char) (found : String)
  | unexpectedName
  | reservedEnumValue
  | interfaceExtensionBody
  | noOnKeyword
  | fragmentNamedOn
  | unknownExtension
  | nestingLimit
  deriving DecidableEq, Repr

namespace SyntaxProblem

private def closingName : Char → String
  | '}' => "R_CURLY"
  | ')' => "R_PAREN"
  | ']' => "R_BRACK"
  | c => c.toString

def message : SyntaxProblem → String
  | wanted what => "expected " ++ what.phrase
  | unclosed mark found => "expected " ++ closingName mark ++ ", got " ++ found
  | unexpectedName => "unexpected Name"
  | reservedEnumValue => "unexpected Enum Value"
  | interfaceExtensionBody =>
      "exptected an Implements Interfaces, Directives, or a Fields Definition"
  | noOnKeyword => "exptected 'on'"
  | fragmentNamedOn => "Fragment Name cannot be 'on'"
  | unknownExtension =>
      "Invalid Type System Extension. This extension cannot be applied."
  | nestingLimit => "parser recursion limit reached"

end SyntaxProblem

inductive Problem
  | lexical (problem : LexicalProblem)
  | grammatical (problem : SyntaxProblem)
  | other (text : String)
  deriving DecidableEq, Repr

def Problem.message : Problem → String
  | lexical problem => problem.message
  | grammatical problem => problem.message
  | other text => text

/-- A problem with the byte offset it is reported at and the text found there.
-/
structure Fault where
  index : Nat
  found : String
  problem : Problem
  deriving DecidableEq, Repr

end GraphqlFragments.Sdl
