/-!
# Blank characters

The characters that leave the page white: spaces of any width and the ends of lines
and paragraphs. A space that has no width is none of them.
-/

namespace GraphqlFragments.Text

/-- First and last code point of each run of blank characters, ascending. -/
def blankRanges : List (Nat × Nat) :=
  [
    (0x9, 0xd), (0x20, 0x20), (0x85, 0x85), (0xa0, 0xa0), (0x1680, 0x1680),
    (0x2000, 0x200a), (0x2028, 0x2029), (0x202f, 0x202f), (0x205f, 0x205f),
    (0x3000, 0x3000)
  ]

def isBlank (c : Char) : Bool :=
  blankRanges.any fun run => run.1 ≤ c.toNat && c.toNat ≤ run.2

def dropBlanks (text : List Char) : List Char := text.dropWhile isBlank

end GraphqlFragments.Text
