/-!
# Hexadecimal digits

Escapes give code points by hexadecimal digits of either case.
-/

namespace GraphqlFragments.Text

def isHexDigit (c : Char) : Bool :=
  c.isDigit || ('a' ≤ c && c ≤ 'f') || ('A' ≤ c && c ≤ 'F')

def hexValue (c : Char) : Nat :=
  if c.isDigit then c.toNat - '0'.toNat
  else if 'a' ≤ c then c.toNat - 'a'.toNat + 10
  else c.toNat - 'A'.toNat + 10

/-- The number that hexadecimal digits denote. -/
def ofHexDigits (digits : List Char) : Nat :=
  digits.foldl (fun n c => n * 16 + hexValue c) 0

/-- The number in lower-case hexadecimal digits, without leading zeros. -/
def toHexDigits (n : Nat) : List Char := Nat.toDigits 16 n

/-- Code points that come in pairs and are no characters by themselves. -/
def isSurrogate (n : Nat) : Bool := 0xD800 ≤ n && n < 0xE000

end GraphqlFragments.Text
