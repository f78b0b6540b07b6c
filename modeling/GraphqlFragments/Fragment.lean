import GraphqlFragments.Selection
/-!
# Fragments

A fragment is a named list of selections on one object type. Its text has a line
for a plain field or a spread and a block of three lines for a relation.
-/

namespace GraphqlFragments

namespace Selection

/-- The lines of a selection, each with the indentation of the fragment. -/
def lines : Selection → List String
  | field name => ["  " ++ name]
  | spread s => ["  " ++ s.toText]
  | nested name s => ["  " ++ name ++ " \x7b", "    " ++ s.toText, "  \x7d"]

end Selection

structure Fragment where
  name : String
  type : String
  selections : List Selection
  deriving DecidableEq, Repr

namespace Fragment

def header (f : Fragment) : String := "fragment " ++ f.name ++ " on " ++ f.type ++ " \x7b"

def lines (f : Fragment) : List String :=
  f.header :: f.selections.flatMap Selection.lines ++ ["\x7d"]

/-- The text of the fragment; no line break follows its last line. -/
def body (f : Fragment) : String := String.intercalate "\n" f.lines

end Fragment

/-- The fragments of one run, grouped by the mode that made them. -/
structure FragmentSet where
  default : List Fragment
  noRelations : List Fragment
  deep : List Fragment
  deriving DecidableEq, Repr

namespace FragmentSet

def empty : FragmentSet := ⟨[], [], []⟩

def all (s : FragmentSet) : List Fragment := s.default ++ s.noRelations ++ s.deep

def names (s : FragmentSet) : List String := s.all.map Fragment.name

/-- The first fragment of a name. -/
def find? (s : FragmentSet) (name : String) : Option Fragment :=
  s.all.find? fun f => f.name = name

end FragmentSet

/-- The fragment of an object type in a mode. There is none if the mode selects
no field of the type, and none in the deep mode. -/
def TypeSystem.fragment? (ts : TypeSystem) (mode : Mode) (object : ObjectType) :
    Except UnknownFieldType (Option Fragment) :=
  match mode.fragmentSuffix? with
  | none => .ok none
  | some suffix => do
      let selections ← ts.selections mode object
      return if selections.isEmpty then none
        else some ⟨object.name ++ suffix, object.name, selections⟩

end GraphqlFragments
