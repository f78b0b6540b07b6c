import GraphqlFragments.TypeSystem
/-!
# Selections

A fragment selects fields of one object type. A relation, which is a field that
leads to an object type, is selected by spreading a fragment of that type.
-/

namespace GraphqlFragments

/-- How a fragment treats relations. -/
inductive Mode
  /-- One level of relations: their targets are spread without any. -/
  | default
  /-- No relations. -/
  | noRelations
  /-- Relations all the way down. -/
  | deep
  deriving DecidableEq, Repr

/-- What tells the fragments of one type apart. -/
inductive SpreadSuffix
  | noNesting
  /-- Stands for the deep fragment of a type before its tier is settled. -/
  | deepNesting
  | full
  | tier (label : String)
  deriving DecidableEq, Repr

def SpreadSuffix.text : SpreadSuffix → String
  | noNesting => "NoNesting"
  | deepNesting => "DeepNesting"
  | full => "Full"
  | tier label => label

structure Spread where
  type : String
  suffix : SpreadSuffix
  deriving DecidableEq, Repr

namespace Spread

def fragmentName (s : Spread) : String := s.type ++ s.suffix.text

def toText (s : Spread) : String := "..." ++ s.fragmentName

end Spread

inductive Selection
  | field (name : String)
  | nested (field : String) (spread : Spread)
  | spread (spread : Spread)
  deriving DecidableEq, Repr

namespace Selection

def fieldName? : Selection → Option String
  | field name => some name
  | nested name _ => some name
  | spread _ => none

def spread? : Selection → Option Spread
  | field _ => none
  | nested _ s => some s
  | spread s => some s

end Selection

/-! ## Selecting the fields of a type -/

namespace Mode

/-- The suffix of the fragments that a mode makes. Those of the deep mode get
theirs when their tiers are settled. -/
def fragmentSuffix? : Mode → Option String
  | default => some ""
  | noRelations => some "NoNesting"
  | deep => none

/-- The suffix with which a mode spreads the target of a relation. -/
def relationSuffix? : Mode → Option SpreadSuffix
  | default => some .noNesting
  | noRelations => none
  | deep => some .deepNesting

/-- How a mode selects a field of a kind, if it does. -/
def select? (mode : Mode) (field : String) : FieldKind → Option Selection
  | .scalar | .enum => some (.field field)
  | .object target => mode.relationSuffix?.map fun suffix => .nested field ⟨target, suffix⟩
  | .other _ => none

end Mode

namespace TypeSystem

def selection? (ts : TypeSystem) (mode : Mode) (owner : String) (field : Field) :
    Except UnknownFieldType (Option Selection) := do
  return mode.select? field.name (← ts.classify owner field)

/-- The selected fields of an object type in the order of their declarations. A
field of an unknown type spoils all of them. -/
def selections (ts : TypeSystem) (mode : Mode) (object : ObjectType) :
    Except UnknownFieldType (List Selection) := do
  return (← object.fields.mapM (ts.selection? mode object.name)).filterMap id

end TypeSystem

end GraphqlFragments
