import GraphqlFragments.Table
/-!
# JSON values

Objects keep the order of their members. Numbers are integers where they are
written as such and fit 64 bits, and floating-point numbers otherwise.
-/

namespace GraphqlFragments

inductive Json
  | null
  | bool (value : Bool)
  | integer (value : Int)
  | float (value : Float)
  | string (value : String)
  | array (items : List Json)
  | object (members : List (String × Json))
  deriving Repr

namespace Json

def text? : Json → Option String
  | string s => some s
  | _ => none

end Json

end GraphqlFragments
