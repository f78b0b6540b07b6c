import GraphqlFragments.Text.Hex
/-!
# Text for terminals

A terminal obeys some characters instead of showing them. Text that comes from
elsewhere is shown with escapes in their place. Changes of colour are characters as
well; where nothing has a colour they are left out.
-/

namespace GraphqlFragments.Text

/-- The controls of ASCII that can do harm: bell, backspace, form feed, escape and
delete. -/
def isShieldedControl (c : Char) : Bool :=
  ['\x07', '\x08', '\x0c', '\x1b', '\x7f'].contains c

/-- The controls beyond ASCII. -/
def isHighControl (c : Char) : Bool := 0x80 ≤ c.toNat && c.toNat ≤ 0x9f

/-- Controls of ASCII have two digits, the others stand in braces. -/
def shieldChar (c : Char) : List Char :=
  let digits := toHexDigits c.toNat
  if isShieldedControl c then ['\\', 'x'] ++ List.replicate (2 - digits.length) '0' ++ digits
  else if isHighControl c then ['\\', 'u', '{'] ++ digits ++ ['}']
  else [c]

def shield (text : List Char) : List Char := text.flatMap shieldChar

/-! ## Colours -/

/-- The text in bright red, with the usual colour behind it. -/
def red (text : List Char) : List Char := "\x1b[91m".toList ++ text ++ "\x1b[0m".toList

/-- How many characters a change of colour at the beginning of a text has. -/
def colourLength : List Char → Nat
  | '\x1b' :: '[' :: rest =>
      let numbers := rest.takeWhile fun c => c.isDigit || c = ';'
      if rest[numbers.length]? = some 'm' then numbers.length + 3 else 0
  | _ => 0

/-- The text without its changes of colour, after some characters that are skipped. -/
def uncolouredAfter : Nat → List Char → List Char
  | _, [] => []
  | skipped + 1, _ :: rest => uncolouredAfter skipped rest
  | 0, c :: rest =>
      match colourLength (c :: rest) with
      | 0 => c :: uncolouredAfter 0 rest
      | length + 1 => uncolouredAfter length rest

def uncoloured (text : List Char) : List Char := uncolouredAfter 0 text

end GraphqlFragments.Text
