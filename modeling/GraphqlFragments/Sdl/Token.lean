import GraphqlFragments.Sdl.Problem
import GraphqlFragments.Text.Hex
import GraphqlFragments.Text.Size
/-!
# Tokens of a schema document

White space and comments separate tokens and are dropped. Commas carry no
meaning either, but they stay among the tokens: whoever looks ahead sees them.
A piece of text that is no token becomes a faulty one, so that it is reported
only once reading gets there.
-/

namespace GraphqlFragments.Sdl

open Text (isHexDigit ofHexDigits isSurrogate utf8Size)

inductive TokenKind
  | punctuator (mark : Char)
  | spread
  | name
  | int
  | float
  | string
  /-- `located` faults are reported at their own place, the others at the start
  of the document. -/
  | faulty (problem : LexicalProblem) (located : Bool)
  /-- The end of the document. -/
  | finish
  deriving DecidableEq, Repr

structure Token where
  kind : TokenKind
  text : String
  /-- Bytes before the token. -/
  offset : Nat
  deriving DecidableEq, Repr

/-! ## Character classes -/

def isPunctuator (c : Char) : Bool :=
  ['!', '$', '&', '(', ')', ',', ':', '=', '@', '[', ']', '{', '|', '}'].contains c

def isBlank (c : Char) : Bool := ['\t', ' ', '\n', '\r', '\uFEFF'].contains c

def isLineEnd (c : Char) : Bool := c = '\n' || c = '\r'

def isNameStart (c : Char) : Bool := c.isAlpha || c = '_'

def isNameChar (c : Char) : Bool := c.isAlphanum || c = '_'

/-- A piece at the start of the text; without a kind it only separates. -/
structure Lexeme where
  text : List Char
  kind : Option TokenKind
  deriving DecidableEq, Repr

namespace Lexeme

def faulty (text : List Char) (problem : LexicalProblem) : Lexeme :=
  ⟨text, some (.faulty problem false)⟩

def faultyHere (text : List Char) (problem : LexicalProblem) : Lexeme :=
  ⟨text, some (.faulty problem true)⟩

/-! ## Numbers

`read` is the part of the number before the characters in question.
-/

/-- A number ends where neither a letter nor, after a float, a point follows. -/
def numberEnd (kind : TokenKind) (read : List Char) : List Char → Lexeme
  | [] => ⟨read, some kind⟩
  | c :: _ =>
      if kind = .int then
        if isNameStart c then faulty (read ++ [c]) (.integerSuffix c)
        else ⟨read, some kind⟩
      else if isNameStart c || c = '.' then faulty (read ++ [c]) (.floatSuffix c)
      else ⟨read, some kind⟩

def exponentDigits (read : List Char) (signed : Bool) : List Char → Lexeme
  | [] => faulty read .unfinishedFloat
  | c :: rest =>
      if c.isDigit then
        numberEnd .float (read ++ (c :: rest).takeWhile Char.isDigit)
          ((c :: rest).dropWhile Char.isDigit)
      else faulty (read ++ [c]) (.noExponentDigit c signed)

def exponentPart (kind : TokenKind) (read : List Char) : List Char → Lexeme
  | [] => numberEnd kind read []
  | e :: rest =>
      if e = 'e' || e = 'E' then
        match rest with
        | '+' :: digits => exponentDigits (read ++ [e, '+']) true digits
        | '-' :: digits => exponentDigits (read ++ [e, '-']) true digits
        | digits => exponentDigits (read ++ [e]) false digits
      else numberEnd kind read (e :: rest)

def fractionPart (read : List Char) : List Char → Lexeme
  | ['.'] => faulty (read ++ ['.']) .unfinishedFloat
  | '.' :: c :: rest =>
      if c.isDigit then
        exponentPart .float (read ++ '.' :: (c :: rest).takeWhile Char.isDigit)
          ((c :: rest).dropWhile Char.isDigit)
      else faulty (read ++ ['.', c]) (.noFractionDigit c)
  | rest => exponentPart .int read rest

def integerPart (read cs : List Char) : Lexeme :=
  match cs with
  | '0' :: c :: _ =>
      if c.isDigit then faulty (read ++ ['0', c]) .leadingZero
      else fractionPart (read ++ ['0']) cs.tail
  | _ => fractionPart (read ++ cs.takeWhile Char.isDigit) (cs.dropWhile Char.isDigit)

/-- The text starts with a digit or a minus sign. -/
def number : List Char → Lexeme
  | ['-'] => faulty ['-'] (.unexpectedCharacter '-')
  | '-' :: c :: rest =>
      if c.isDigit then integerPart ['-'] (c :: rest)
      else faulty ['-', c] (.characterAfterMinus c)
  | cs => integerPart [] cs

/-! ## Strings -/

/-- The characters of a block string after its opening quotes, with the closing
ones. A backslash takes the next character with it, or up to three quotes. -/
def blockStringRest : List Char → Option (List Char)
  | '"' :: '"' :: '"' :: _ => some ['"', '"', '"']
  | '\\' :: '"' :: '"' :: '"' :: rest =>
      (blockStringRest rest).map (['\\', '"', '"', '"'] ++ ·)
  | '\\' :: '"' :: '"' :: rest => (blockStringRest rest).map (['\\', '"', '"'] ++ ·)
  | '\\' :: c :: rest => (blockStringRest rest).map (['\\', c] ++ ·)
  | c :: rest => (blockStringRest rest).map (c :: ·)
  | [] => none

/-- Where the reading of a string stands: right after the opening quote, in
plain text, after a backslash, or among the digits of a Unicode escape. -/
inductive StringState
  | opening
  | text
  | escape
  | unicode (digits : List Char)
  deriving DecidableEq, Repr

/-- Puts a character in front of the text that was read after it. -/
def keep (c : Char) (read : Option (List Char × Option LexicalProblem)) :
    Option (List Char × Option LexicalProblem) :=
  read.map fun (text, problem) => (c :: text, problem)

/-- The characters of a string after its opening quote, with the closing one,
and the last problem among them. There are none if the text ends first. -/
def stringRest :
    StringState → Option LexicalProblem → List Char →
      Option (List Char × Option LexicalProblem)
  | _, _, [] => none
  | .unicode digits, latest, c :: rest =>
      if c = '"' then some ([c], some .shortUnicodeEscape)
      else if !isHexDigit c then keep c (stringRest .text (some .badUnicodeEscape) rest)
      else if digits.length < 3 then
        keep c (stringRest (.unicode (digits ++ [c])) latest rest)
      else if isSurrogate (ofHexDigits (digits ++ [c])) then
        keep c (stringRest .text (some .surrogateEscape) rest)
      else keep c (stringRest .text latest rest)
  | .escape, latest, c :: rest =>
      if c = 'u' then keep c (stringRest (.unicode []) latest rest)
      else if ['"', '\\', '/', 'b', 'f', 'n', 'r', 't'].contains c then
        keep c (stringRest .text latest rest)
      else keep c (stringRest .text (some .unknownEscape) rest)
  | state, latest, c :: rest =>
      if c = '"' then some ([c], latest)
      else if c = '\\' then keep c (stringRest .escape latest rest)
      else if isLineEnd c && state = .text then
        keep c (stringRest .text (some .lineBreakInString) rest)
      else keep c (stringRest .text latest rest)

/-- The text after a first quote. -/
def string (rest : List Char) : Lexeme :=
  match rest with
  | '"' :: '"' :: block =>
      match blockStringRest block with
      | some text => ⟨'"' :: '"' :: '"' :: text, some .string⟩
      | none => faultyHere ('"' :: rest) .unclosedString
  | '"' :: _ => ⟨['"', '"'], some .string⟩
  | [] => faulty ['"'] .loneQuote
  | _ =>
      match stringRest .opening none rest with
      | none => faultyHere ('"' :: rest) .unclosedString
      | some (text, none) => ⟨'"' :: text, some .string⟩
      | some (text, some problem) => faultyHere ('"' :: text) problem

/-! ## One piece of text -/

def spread : List Char → Lexeme
  | '.' :: '.' :: _ => ⟨['.', '.', '.'], some .spread⟩
  | rest => faultyHere ('.' :: rest.take 1) .unfinishedSpread

/-- The lexeme that the character `c` begins. -/
def start (c : Char) (rest : List Char) : Lexeme :=
  if isPunctuator c then ⟨[c], some (.punctuator c)⟩
  else if isBlank c then ⟨c :: rest.takeWhile isBlank, none⟩
  else if c = '#' then ⟨c :: rest.takeWhile fun d => !isLineEnd d, none⟩
  else if isNameStart c then ⟨c :: rest.takeWhile isNameChar, some .name⟩
  else if c = '.' then spread rest
  else if c = '"' then string rest
  else if c.isDigit || c = '-' then number (c :: rest)
  else faulty [c] (.unexpectedCharacter c)

end Lexeme

/-! ## The whole text -/

/-- The tokens of a text that begins `offset` bytes into the document. -/
def tokens (offset : Nat) : List Char → List Token
  | [] => []
  | c :: rest =>
      let lexeme := Lexeme.start c rest
      let later := tokens (offset + utf8Size lexeme.text) (rest.drop (lexeme.text.length - 1))
      match lexeme.kind with
      | none => later
      | some kind => ⟨kind, String.ofList lexeme.text, offset⟩ :: later
termination_by cs => cs.length
decreasing_by
  all_goals
    rw [List.length_drop, List.length_cons]
    omega

end GraphqlFragments.Sdl
