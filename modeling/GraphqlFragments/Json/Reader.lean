import GraphqlFragments.Decimal.Scaled
import GraphqlFragments.Json.Problem
import GraphqlFragments.Text.Size
/-!
# Reading JSON

Readers take characters from the front of the text that is left. A fault tells
how many bytes are left behind its place, which is right before the text that is
left, or one byte further on if the next byte is to blame.
-/

namespace GraphqlFragments.Json

open Text (utf8Size isHexDigit ofHexDigits isSurrogate)

structure Fault where
  cause : Cause
  /-- Bytes after the place of the fault. -/
  unread : Nat
  deriving Repr

abbrev Reader := StateT (List Char) (Except Fault)

namespace Reader

def rest : Reader (List Char) := get

def fail {α : Type} (cause : Cause) : Reader α := do
  throw ⟨cause, utf8Size (← rest)⟩

/-- Blames the next bytes, of which there may be fewer. -/
def failAfter {α : Type} (bytes : Nat) (cause : Cause) : Reader α := do
  throw ⟨cause, utf8Size (← rest) - bytes⟩

def failPast {α : Type} (cause : Cause) : Reader α := failAfter 1 cause

def peek : Reader (Option Char) := return (← rest).head?

def skip : Reader Unit := modify List.tail

def isBlank (c : Char) : Bool := [' ', '\n', '\t', '\r'].contains c

/-- The next character that is not white space. -/
def next : Reader (Option Char) := do
  modify (List.dropWhile isBlank)
  peek

/-- The next character where one has to come. -/
def nextOr (atEnd : Cause) : Reader Char := do
  match ← next with
  | some c => return c
  | none => failPast atEnd

/-! ## Words and numbers -/

/-- The letters of a word, of which the first is read already. -/
def letters : List Char → Reader Unit
  | [] => return
  | wanted :: more => do
      match ← peek with
      | none => fail .endInValue
      | some c => if c = wanted then skip else failPast .noIdent
      letters more

def digits : Reader (List Char) := do
  let cs ← rest
  set (cs.dropWhile Char.isDigit)
  return cs.takeWhile Char.isDigit

def isAtDigit : Reader Bool := return ((← peek).map Char.isDigit).getD false

/-- Digits, of which there is at least one. -/
def someDigits : Reader (List Char) := do
  match ← peek with
  | none => fail .endInValue
  | some c => if c.isDigit then digits else failPast .invalidNumber

/-- No digit follows a leading zero. -/
def integerDigits : Reader (List Char) := do
  if (← peek) = some '0' then
    skip
    if ← isAtDigit then failPast .invalidNumber
    return ['0']
  else someDigits

/-- The digits after a point, if there is one. -/
def fractionDigits? : Reader (Option (List Char)) := do
  if (← peek) ≠ some '.' then return none
  skip
  if ← isAtDigit then return some (← digits)
  failPast (if (← peek).isSome then .invalidNumber else .endInValue)

def ofDigits (digits : List Char) : Nat :=
  digits.foldl (fun n c => n * 10 + Decimal.digitValue c) 0

/-- The greatest exponent that is told from even greater ones. -/
def exponentLimit : Nat := 0x7fffffff

/-- How many digits it takes to get beyond a limit, if they do. -/
def digitsBeyond? (limit n : Nat) : List Char → Option Nat
  | [] => none
  | c :: rest =>
      let longer := n * 10 + Decimal.digitValue c
      if limit < longer then some 1 else (digitsBeyond? limit longer rest).map (· + 1)

/-- The exponent of a number whose other digits are all zero or not. An exponent
that is too large is blamed as soon as it is. -/
def exponent? (isZero : Bool) : Reader (Option Int) := do
  if (← peek) ≠ some 'e' && (← peek) ≠ some 'E' then return none
  skip
  let sign ← peek
  if sign = some '+' || sign = some '-' then skip
  let start ← rest
  let digits ← someDigits
  match digitsBeyond? exponentLimit 0 digits with
  | some count =>
      if !isZero && sign ≠ some '-' then
        set (start.drop count)
        fail .numberOutOfRange
  | none => pure ()
  let magnitude := ofDigits digits
  return some (if sign = some '-' then -magnitude else magnitude)

/-- Whether a signed or an unsigned word of 64 bits holds the integer. -/
def isWord64 (n : Int) : Bool := -0x8000000000000000 ≤ n && n < 0x10000000000000000

/-- A number without fraction and exponent is an integer if it fits 64 bits.
There is no negative zero among the integers. -/
def number : Reader Json := do
  let negative := (← peek) = some '-'
  if negative then skip
  let whole ← integerDigits
  let fraction ← fractionDigits?
  let (significand, point) := Decimal.significand whole (fraction.getD [])
  let exponent ← exponent? (significand = 0)
  let magnitude := ofDigits whole
  let n : Int := if negative then -magnitude else magnitude
  if fraction.isNone && exponent.isNone && isWord64 n && !(negative && magnitude = 0) then
    return .integer n
  let x := Decimal.scaled significand (exponent.getD 0 + point)
  if x.isInf then fail .numberOutOfRange
  return .float (if negative then -x else x)

/-! ## Strings -/

/-- The next character inside a string. -/
def take : Reader Char := do
  match ← rest with
  | [] => fail .endInString
  | c :: more => do
      set more
      return c

/-- Four hexadecimal digits. All four bytes are blamed if one is no digit. -/
def fourHexDigits : Reader Nat := do
  let cs ← rest
  if utf8Size cs < 4 then throw ⟨.endInString, 0⟩
  if (cs.take 4).all isHexDigit then
    set (cs.drop 4)
    return ofHexDigits (cs.take 4)
  else failAfter 4 .invalidEscape

/-- A fixed character of an escape. -/
def escapePart (wanted : Char) : Reader Unit := do
  match ← peek with
  | none => fail .endInString
  | some c => if c = wanted then skip else failPast .unfinishedSurrogates

def isTrailingSurrogate (n : Nat) : Bool := 0xDC00 ≤ n && n < 0xE000

/-- A code point by its digits. Two surrogates make one of the higher ones. -/
def unicodeEscape : Reader Char := do
  let n ← fourHexDigits
  if !isSurrogate n then return Char.ofNat n
  if isTrailingSurrogate n then fail .loneSurrogate
  escapePart '\\'
  escapePart 'u'
  let low ← fourHexDigits
  if !isTrailingSurrogate low then fail .loneSurrogate
  return Char.ofNat (0x10000 + (n - 0xD800) * 0x400 + (low - 0xDC00))

def escapedChar? : Char → Option Char
  | '"' => some '"'
  | '\\' => some '\\'
  | '/' => some '/'
  | 'b' => some '\x08'
  | 'f' => some '\x0c'
  | 'n' => some '\n'
  | 'r' => some '\r'
  | 't' => some '\t'
  | _ => none

/-- What stands for a character after a backslash. -/
def escape : Reader Char := do
  match ← peek with
  | none => fail .endInString
  | some c =>
      if c = 'u' then
        skip
        unicodeEscape
      else
        match escapedChar? c with
        | some d => do
            skip
            return d
        | none => failPast .invalidEscape

def stringWithin : (rounds : Nat) → Reader (List Char)
  | 0 => fail .endInString
  | rounds + 1 => do
      let c ← take
      if c = '"' then return []
      else if c = '\\' then
        let d ← escape
        return d :: (← stringWithin rounds)
      else if c.toNat < 0x20 then fail .controlCharacter
      else return c :: (← stringWithin rounds)

/-- A string, at its opening quote. -/
def string : Reader String := do
  skip
  return String.ofList (← stringWithin ((← rest).length + 1))

/-! ## Containers -/

def itemsWithin {α : Type} (item : Reader α) : (rounds : Nat) → Reader (List α)
  | 0 => failPast .endInList
  | rounds + 1 => do
      let c ← nextOr .endInList
      if c = ']' then
        skip
        return []
      if c ≠ ',' then failPast .noCommaInList
      skip
      if (← nextOr .endInValue) = ']' then failPast .trailingComma
      return (← item) :: (← itemsWithin item rounds)

/-- A list, at its opening bracket. -/
def items {α : Type} (item : Reader α) : Reader (List α) := do
  skip
  if (← nextOr .endInList) = ']' then
    skip
    return []
  return (← item) :: (← itemsWithin item ((← rest).length + 1))

def membersWithin {σ : Type} (member : String → σ → Reader σ) :
    (rounds : Nat) → σ → Reader σ
  | 0, _ => failPast .endInObject
  | rounds + 1, sofar => do
      let c ← nextOr .endInObject
      if c = '}' then return sofar
      if c ≠ ',' then failPast .noCommaInObject
      skip
      let c ← nextOr .endInValue
      if c = '}' then failPast .trailingComma
      if c ≠ '"' then failPast .keyNotString
      membersWithin member rounds (← member (← string) sofar)

/-- The members of an object, at its opening brace; the closing one is left to be
read. Each member is read, from its colon on, on top of what came before it. -/
def members {σ : Type} (member : String → σ → Reader σ) (start : σ) : Reader σ := do
  skip
  let c ← nextOr .endInObject
  if c = '}' then return start
  if c ≠ '"' then failPast .keyNotString
  let first ← member (← string) start
  membersWithin member ((← rest).length + 1) first

def colon : Reader Unit := do
  if (← nextOr .endInObject) ≠ ':' then failPast .noColon
  skip

def closeObject : Reader Unit := do
  if (← next) = some '}' then skip

/-- An object with values of one sort, at its opening brace. -/
def table {α : Type} (value : Reader α) : Reader (Table α) := do
  let t ← members (fun key t => do
    colon
    return Table.insert t key (← value)) []
  closeObject
  return t

/-! ## Values -/

/-- A value that is no container. -/
def scalar : Reader Json := do
  match ← peek with
  | some 'n' => do
      skip
      letters ['u', 'l', 'l']
      return .null
  | some 't' => do
      skip
      letters ['r', 'u', 'e']
      return .bool true
  | some 'f' => do
      skip
      letters ['a', 'l', 's', 'e']
      return .bool false
  | some '"' => return .string (← string)
  | some c => if c = '-' || c.isDigit then number else failPast .noValue
  | none => failPast .noValue

/-- A value with containers nested to `levels` levels at most. -/
def value : (levels : Nat) → Reader Json
  | 0 => do
      let c ← nextOr .endInValue
      if c = '[' || c = '{' then failPast .tooDeep else scalar
  | levels + 1 => do
      let c ← nextOr .endInValue
      if c = '[' then return .array (← items (value levels))
      else if c = '{' then return .object (← table (value levels))
      else scalar

/-! ## Values of a wanted shape -/

/-- Blames a value for its shape. A container is named without being read. -/
def wrongShape {α : Type} (wanted : Shape) : Reader α := do
  match ← peek with
  | some '[' => fail (.wrongShape (.array []) wanted)
  | some '{' => fail (.wrongShape (.object []) wanted)
  | _ => do
      let value ← scalar
      fail (.wrongShape value wanted)

/-- Asks for the character that begins a value of the wanted shape. -/
def begins (start : Char) (wanted : Shape) : Reader Unit := do
  if (← nextOr .endInValue) ≠ start then wrongShape wanted

def textOf (wanted : Shape) : Reader String := do
  begins '"' wanted
  string

def listOf {α : Type} (wanted : Shape) (item : Reader α) : Reader (List α) := do
  begins '[' wanted
  items item

def tableOf {α : Type} (wanted : Shape) (value : Reader α) : Reader (Table α) := do
  begins '{' wanted
  table value

def finish : Reader Unit := do
  if (← next).isSome then failPast .trailingCharacters

end Reader

/-- Containers in a document nest to so many levels at most. -/
def nestingLimit : Nat := 127

/-- Reads a document from its first to its last character. -/
def readDocument {α : Type} (reader : Reader α) (text : String) : Except Problem α :=
  match reader.run text.toList with
  | .ok (a, _) => .ok a
  | .error fault =>
      let bytes := text.toUTF8.toList
      .error ⟨fault.cause, some (.ofOffset bytes (bytes.length - fault.unread))⟩

/-- A document that may be any value. -/
def parse (text : String) : Except Problem Json :=
  readDocument (do
    let v ← Reader.value nestingLimit
    Reader.finish
    return v) text

end GraphqlFragments.Json
