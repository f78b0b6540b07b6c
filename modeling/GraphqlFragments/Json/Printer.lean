import GraphqlFragments.Decimal.Shortest
import GraphqlFragments.Json.Basic
import GraphqlFragments.Text.Hex
/-!
# Writing JSON

A document is written without white space or with a line for each item.
-/

namespace GraphqlFragments.Json

/-- Numbers from 0.00001 to below 1e16 are written without an exponent. -/
def floatLayout : Decimal.Layout := ⟨-4, 16⟩

def floatChars (x : Float) : List Char := Decimal.ofFloat floatLayout x

def integerChars (n : Int) : List Char :=
  if n < 0 then '-' :: Nat.toDigits 10 n.natAbs else Nat.toDigits 10 n.natAbs

/-! ## Strings -/

/-- The form of a character inside a string. Only what a string may not hold as
it is gets escaped. -/
def stringChar (c : Char) : List Char :=
  match c with
  | '"' => ['\\', '"']
  | '\\' => ['\\', '\\']
  | '\x08' => ['\\', 'b']
  | '\x0c' => ['\\', 'f']
  | '\n' => ['\\', 'n']
  | '\r' => ['\\', 'r']
  | '\t' => ['\\', 't']
  | c =>
      if c.toNat < 0x10 then ['\\', 'u', '0', '0', '0'] ++ Text.toHexDigits c.toNat
      else if c.toNat < 0x20 then ['\\', 'u', '0', '0'] ++ Text.toHexDigits c.toNat
      else [c]

def stringChars (s : String) : List Char :=
  '"' :: s.toList.flatMap stringChar ++ ['"']

/-! ## Values -/

inductive Layout
  | compact
  /-- Two spaces of indentation for each level. -/
  | indented
  deriving DecidableEq, Repr

namespace Layout

/-- What stands between the items of a container at a level. -/
def lineBreak : Layout → Nat → List Char
  | compact, _ => []
  | indented, level => '\n' :: List.replicate (2 * level) ' '

def colon : Layout → List Char
  | compact => [':']
  | indented => [':', ' ']

end Layout

mutual

/-- A value whose containers stand at a level. -/
def chars (layout : Layout) (level : Nat) : Json → List Char
  | null => "null".toList
  | bool true => "true".toList
  | bool false => "false".toList
  | integer n => integerChars n
  | float x => floatChars x
  | string s => stringChars s
  | array [] => ['[', ']']
  | array (item :: rest) =>
      '[' :: layout.lineBreak (level + 1) ++ chars layout (level + 1) item ++
        itemChars layout (level + 1) rest ++ layout.lineBreak level ++ [']']
  | object [] => ['{', '}']
  | object ((key, value) :: rest) =>
      '{' :: layout.lineBreak (level + 1) ++ stringChars key ++ layout.colon ++
        chars layout (level + 1) value ++ memberChars layout (level + 1) rest ++
        layout.lineBreak level ++ ['}']

/-- The items of a list after the first one. -/
def itemChars (layout : Layout) (level : Nat) : List Json → List Char
  | [] => []
  | item :: rest =>
      ',' :: layout.lineBreak level ++ chars layout level item ++
        itemChars layout level rest

/-- The members of an object after the first one. -/
def memberChars (layout : Layout) (level : Nat) : List (String × Json) → List Char
  | [] => []
  | (key, value) :: rest =>
      ',' :: layout.lineBreak level ++ stringChars key ++ layout.colon ++
        chars layout level value ++ memberChars layout level rest

end

def compact (v : Json) : String := String.ofList (v.chars .compact 0)

def indented (v : Json) : String := String.ofList (v.chars .indented 0)

end GraphqlFragments.Json
