/-!
# Sizes in bytes

Positions in documents count the bytes of the UTF-8 form.
-/

namespace GraphqlFragments.Text

def utf8Size : List Char → Nat
  | [] => 0
  | c :: rest => c.utf8Size + utf8Size rest

end GraphqlFragments.Text
