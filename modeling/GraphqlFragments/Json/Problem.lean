import GraphqlFragments.Json.Printer
import GraphqlFragments.Text.Quoted
/-!
# Problems of a JSON document

What can be wrong with a document, as JSON and as the kind of document that is
wanted, with the wording of each.
-/

namespace GraphqlFragments.Json

/-- What a value at some place of a document has to be. -/
inductive Shape
  | text
  | path
  | set
  | map
  | project
  | configuration
  | fragmentSettings
  deriving DecidableEq, Repr

def Shape.phrase : Shape → String
  | text => "a string"
  | path => "path string"
  | set => "a set"
  | map => "a map"
  | project => "struct ProjectConfig"
  | configuration => "struct ConfigFile"
  | fragmentSettings => "struct FragmentsExtension"

/-- How a value of the wrong shape is named. -/
def found : Json → String
  | null => "null"
  | bool true => "boolean `true`"
  | bool false => "boolean `false`"
  | integer n => "integer `" ++ String.ofList (integerChars n) ++ "`"
  | float x => "floating point `" ++ String.ofList (floatChars x) ++ "`"
  | string s => "string " ++ Text.quoted s
  | array _ => "sequence"
  | object _ => "map"

inductive Cause
  | endInValue
  | endInList
  | endInObject
  | endInString
  | noIdent
  | noValue
  | noColon
  | noCommaInList
  | noCommaInObject
  | trailingComma
  | keyNotString
  | invalidNumber
  | numberOutOfRange
  | controlCharacter
  | invalidEscape
  | loneSurrogate
  | unfinishedSurrogates
  | tooDeep
  | trailingCharacters
  | wrongShape (value : Json) (wanted : Shape)
  | repeatedField (name : String)
  | tooManyItems (count : Nat)
  deriving Repr

def Cause.message : Cause → String
  | endInValue => "EOF while parsing a value"
  | endInList => "EOF while parsing a list"
  | endInObject => "EOF while parsing an object"
  | endInString => "EOF while parsing a string"
  | noIdent => "expected ident"
  | noValue => "expected value"
  | noColon => "expected `:`"
  | noCommaInList => "expected `,` or `]`"
  | noCommaInObject => "expected `,` or `\x7d`"
  | trailingComma => "trailing comma"
  | keyNotString => "key must be a string"
  | invalidNumber => "invalid number"
  | numberOutOfRange => "number out of range"
  | controlCharacter => "control character (\\u0000-\\u001F) found while parsing a string"
  | invalidEscape => "invalid escape"
  | loneSurrogate => "lone leading surrogate in hex escape"
  | unfinishedSurrogates => "unexpected end of hex escape"
  | tooDeep => "recursion limit exceeded"
  | trailingCharacters => "trailing characters"
  | wrongShape value wanted => "invalid type: " ++ value.found ++ ", expected " ++ wanted.phrase
  | repeatedField name => "duplicate field `" ++ name ++ "`"
  | tooManyItems count =>
      "invalid length " ++ toString count ++ ", expected fewer elements in array"

/-- Lines count from one, columns count the bytes of the line before the place.
-/
structure Place where
  line : Nat
  column : Nat
  deriving DecidableEq, Repr

/-- The place of a byte offset. -/
def Place.ofOffset (bytes : List UInt8) (offset : Nat) : Place :=
  let before := bytes.take offset
  let line := before.reverse.takeWhile (· ≠ 10)
  ⟨before.count 10 + 1, line.length⟩

/-- A problem of a value that is no longer part of a document has no place. -/
structure Problem where
  cause : Cause
  place : Option Place
  deriving Repr

def Problem.message (p : Problem) : String :=
  match p.place with
  | none => p.cause.message
  | some place =>
      p.cause.message ++ " at line " ++ toString place.line ++ " column " ++
        toString place.column

end GraphqlFragments.Json
