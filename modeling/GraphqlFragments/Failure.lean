import GraphqlFragments.Sdl.Problem
import GraphqlFragments.Tier.Config
import GraphqlFragments.TypeSystem
/-!
# Failures

Why a run of the generator, or a step of it, can fail.
-/

namespace GraphqlFragments

inductive ConfigFault
  | unreadable (path : FilePath) (fault : IoFault)
  | malformed (path : FilePath) (problem : Json.Problem)
  | badSettings (problem : Json.Problem)
  | noProject (name : String) (path : FilePath)
  | noGenerator (project : String)
  | noOutput (project : String)
  | other (text : String)
  deriving Repr

/-- The extension of a project that holds its fragment settings. -/
def fragmentsExtension : String := "generate-fragments"

def ConfigFault.message : ConfigFault → String
  | unreadable path fault => "cannot read " ++ path.text ++ ": " ++ fault.message
  | malformed path problem => path.text ++ ": " ++ problem.message
  | badSettings problem =>
      "invalid '" ++ fragmentsExtension ++ "' extension: " ++ problem.message
  | noProject name path => "no project " ++ name ++ " in " ++ path.text
  | noGenerator project => "generator cannot be determined for project " ++ project
  | noOutput project => "output path cannot be determined for project " ++ project
  | other text => text

/-- Why there is no schema to read. -/
inductive SchemaPathFault
  | undetermined
  | wrongExtension (path : FilePath)
  | missing (path : FilePath)
  | other (text : String)
  deriving DecidableEq, Repr

def SchemaPathFault.message : SchemaPathFault → String
  | undetermined => "input schema cannot be determined"
  | wrongExtension path =>
      "input schema " ++ path.text ++ " must have a .graphql or .gql extension"
  | missing path => "input schema " ++ path.text ++ " does not exist"
  | other text => text

inductive Failure
  | io (fault : IoFault)
  | parse (fault : Sdl.Fault)
  | schema (fault : SchemaFault)
  | unknownFieldType (field : UnknownFieldType)
  | tiers (fault : TierFault)
  | config (fault : ConfigFault)
  | schemaPath (fault : SchemaPathFault)
  | duplicateFragment (name : String)
  deriving Repr

namespace Failure

def message : Failure → String
  | io fault => "I/O error: " ++ fault.message
  | parse fault =>
      "Parse error at index " ++ toString fault.index ++ ": \"" ++ fault.found ++ "\", " ++
        fault.problem.message
  | schema fault => "Schema error: " ++ fault.message
  | unknownFieldType field =>
      "Cannot classify field " ++ field.owner ++ "." ++ field.field ++ ": unknown type " ++
        field.type
  | tiers fault => "Tier config error: " ++ fault.message
  | config fault => "Config error: " ++ fault.message
  | schemaPath fault => "Schema resolution error: " ++ fault.message
  | duplicateFragment name => "Duplicate fragment name: " ++ name

/-- What lies behind a failure that only passes on another one. -/
def cause? : Failure → Option String
  | io fault => some fault.message
  | _ => none

end Failure

end GraphqlFragments
