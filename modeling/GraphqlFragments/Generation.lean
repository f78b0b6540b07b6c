import GraphqlFragments.Sdl.Document
import GraphqlFragments.Tier.Expansion
/-!
# Generating fragments

Every object type of a schema gets its fragments, type by type in the order of
their definitions. No two fragments of a run may have the same name.
-/

namespace GraphqlFragments

namespace FragmentSet

/-- The fragments of several sets, group by group. -/
def join (sets : List FragmentSet) : FragmentSet :=
  ⟨sets.flatMap default, sets.flatMap noRelations, sets.flatMap deep⟩

end FragmentSet

/-- The first of some names that has come before, or is one of those `seen`. -/
def firstRepeated? (seen : List String) : List String → Option String
  | [] => none
  | name :: rest =>
      if seen.contains name then some name else firstRepeated? (name :: seen) rest

namespace TypeSystem

/-- The fragments of one object type. -/
def fragmentsOf (ts : TypeSystem) (config : TierConfig) (object : ObjectType) :
    Logged FragmentSet := do
  let default ← .ofExcept .unknownFieldType (ts.fragment? .default object)
  let noRelations ← .ofExcept .unknownFieldType (ts.fragment? .noRelations object)
  let deep ← .ofExcept .unknownFieldType (ts.selections .deep object)
  let tiered ← config.expand object.name deep
  return ⟨default.toList, noRelations.toList, tiered⟩

/-- Types with tiers that are no object types of the schema. -/
def unknownTierTypes (ts : TypeSystem) (config : TierConfig) : List String :=
  config.keys.filter fun name => (ts.object name).isNone

def fragments (ts : TypeSystem) (config : TierConfig) : Logged FragmentSet := do
  Logged.note ((ts.unknownTierTypes config).map .unknownTierType)
  let set := FragmentSet.join (← ts.fragmentTypes.mapM (ts.fragmentsOf config))
  match firstRepeated? [] set.names with
  | some name => Logged.fail (.duplicateFragment name)
  | none => return set

/-- The type system of a schema text. -/
def ofText (schema : String) : Except Failure TypeSystem := do
  let document ← (Sdl.Document.parse schema).mapError .parse
  (ofDocument document).mapError .schema

end TypeSystem

/-- The fragments of a schema text, with tiers or without. -/
def generate (schema : String) (tiers : Option TierConfig) : Logged FragmentSet := do
  let ts ← .ofExcept id (TypeSystem.ofText schema)
  ts.fragments (tiers.getD .empty)

end GraphqlFragments
