import GraphqlFragments.FileSystem
import GraphqlFragments.Json.Reader
/-!
# Tier configurations

A tier is a label with the names of the fields that it allows. A type with tiers
gets a fragment for each of them in place of its full fragment.
-/

namespace GraphqlFragments

/-- The allowed fields of each label of a type. -/
abbrev Tiers := Table (List String)

/-- The tiers of each type that has any. -/
abbrev TierConfig := Table Tiers

inductive TierFault
  | malformed (problem : Json.Problem)
  | noTypes
  | unreadable (path : FilePath) (fault : IoFault)
  | inFile (path : FilePath) (fault : TierFault)
  | other (text : String)
  deriving Repr

def TierFault.message : TierFault → String
  | malformed problem => problem.message
  | noTypes => "no types configured"
  | unreadable path fault => "cannot read " ++ path.text ++ ": " ++ fault.message
  | inFile path fault => path.text ++ ": " ++ fault.message
  | other text => text

namespace TierConfig

def empty : TierConfig := []

open Json.Reader in
/-- Types with their labels and fields. A field that is listed twice counts
once. -/
def reader : Json.Reader TierConfig := do
  let fields : Json.Reader (List String) := do
    return (← listOf .set (textOf .text)).eraseDups
  let config ← tableOf .map (tableOf .map fields)
  finish
  return config

/-- At least one type has to have an entry. -/
def ofJson (text : String) : Except TierFault TierConfig :=
  match Json.readDocument reader text with
  | .error problem => .error (.malformed problem)
  | .ok [] => .error .noTypes
  | .ok config => .ok config

def load (fs : FileSystem) (path : FilePath) : Except TierFault TierConfig :=
  match fs.readText path with
  | .error fault => .error (.unreadable path fault)
  | .ok text => (ofJson text).mapError (.inFile path)

end TierConfig

end GraphqlFragments
