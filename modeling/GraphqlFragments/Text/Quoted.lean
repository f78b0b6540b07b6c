import GraphqlFragments.Text.Hex
import GraphqlFragments.Text.Unprintable
/-!
# Quoted text

Text in messages stands between double quotes. What would not show, or would
end the text, is escaped.
-/

namespace GraphqlFragments.Text

/-- The common controls have letters of their own; any other unprintable
character is given by its code point in braces. -/
def escapeChar (c : Char) : List Char :=
  match c with
  | '"' => ['\\', '"']
  | '\\' => ['\\', '\\']
  | '\n' => ['\\', 'n']
  | '\r' => ['\\', 'r']
  | '\t' => ['\\', 't']
  | '\x00' => ['\\', '0']
  | c => if isUnprintable c then ['\\', 'u', '{'] ++ toHexDigits c.toNat ++ ['}'] else [c]

def quoted (s : String) : String :=
  String.ofList ('"' :: s.toList.flatMap escapeChar ++ ['"'])

end GraphqlFragments.Text
