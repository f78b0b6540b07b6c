import GraphqlFragments.Failure
/-!
# Notices

What a run reports besides its result. A run shows the notices from some level
on.
-/

namespace GraphqlFragments

inductive Level
  | debug
  | info
  | warn
  | error
  deriving DecidableEq, Repr

namespace Level

def text : Level → String
  | debug => "DEBUG"
  | info => "INFO"
  | warn => "WARN"
  | error => "ERROR"

def rank : Level → Nat
  | debug => 0
  | info => 1
  | warn => 2
  | error => 3

end Level

inductive Notice
  | unknownGenerator (label : String)
  | unknownTierType (name : String)
  | emptyTier (type label : String)
  | fragmentCounts (project : String) (default noNesting full : Nat)
  | generating (project : String)
  | written (project : String) (path : FilePath)
  | skipping (project : String)
  | failed (project : String) (failure : Failure)
  | saved (path : FilePath)
  deriving Repr

namespace Notice

def level : Notice → Level
  | unknownGenerator _ | unknownTierType _ => .warn
  | emptyTier _ _ | fragmentCounts _ _ _ _ => .debug
  | generating _ | written _ _ | skipping _ | saved _ => .info
  | failed _ _ => .error

def message : Notice → String
  | unknownGenerator label =>
      "unknown generator " ++ Text.quoted label ++ ", writing a single GraphQL document"
  | unknownTierType name => "tier config names unknown object type " ++ name
  | emptyTier type label => "tier " ++ label ++ " of " ++ type ++ " selects no fields, skipping"
  | fragmentCounts project default noNesting full =>
      "project " ++ project ++ ": " ++ toString default ++ " default, " ++
        toString noNesting ++ " no-nesting, " ++ toString full ++ " full fragments"
  | generating project => "Generating fragments for project " ++ project
  | written project path =>
      "Fragments for project " ++ project ++ " written to " ++ path.text
  | skipping project =>
      "Skipping project " ++ project ++ " without '" ++ fragmentsExtension ++ "' extension"
  | failed project failure => "Project " ++ project ++ " failed: " ++ failure.message
  | saved path => "Saved settings to " ++ path.text

def line (n : Notice) : String := n.level.text ++ " " ++ n.message

end Notice

end GraphqlFragments
