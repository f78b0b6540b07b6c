import GraphqlFragments.Sdl.Definition
import GraphqlFragments.Table
/-!
# Type systems

What the definitions of a schema amount to: the kind of every named type, the
fields of every object type and the root operation types. The order of the
definitions counts only where one name is defined more than once.
-/

namespace GraphqlFragments

inductive TypeKind
  | scalar
  | enum
  | object
  | interface
  | union
  | inputObject
  deriving DecidableEq, Repr

structure Field where
  name : String
  type : TypeRef
  deriving DecidableEq, Repr

structure ObjectType where
  name : String
  fields : List Field
  deriving DecidableEq, Repr

/-- What a field leads to once its wrappers are gone. -/
inductive FieldKind
  | scalar
  | enum
  | object (name : String)
  /-- Interfaces, unions and input objects. -/
  | other (name : String)
  deriving DecidableEq, Repr

inductive SchemaFault
  /-- A type is extended that no definition introduces. -/
  | undefinedExtension
  /-- An entry of a schema definition has no type. -/
  | untypedRoot
  | other (text : String)
  deriving DecidableEq, Repr

def SchemaFault.message : SchemaFault → String
  | undefinedExtension => "extension of an undefined object type"
  | untypedRoot => "root operation has no named type"
  | other text => text

/-- A field whose innermost type nothing defines. -/
structure UnknownFieldType where
  owner : String
  field : String
  type : String
  deriving DecidableEq, Repr

/-! ## Root operation types -/

structure RootTypes where
  query : Option String
  mutation : Option String
  subscription : Option String
  deriving DecidableEq, Repr

namespace RootTypes

def none : RootTypes := ⟨.none, .none, .none⟩

/-- The root types of a schema that does not define its own. -/
def conventional : RootTypes := ⟨some "Query", some "Mutation", some "Subscription"⟩

def get (r : RootTypes) : Sdl.Operation → Option String
  | .query => r.query
  | .mutation => r.mutation
  | .subscription => r.subscription

def set (r : RootTypes) (operation : Sdl.Operation) (name : String) : RootTypes :=
  match operation with
  | .query => { r with query := some name }
  | .mutation => { r with mutation := some name }
  | .subscription => { r with subscription := some name }

def has (r : RootTypes) (name : String) : Bool :=
  r.query = some name || r.mutation = some name || r.subscription = some name

/-- Later entries for an operation replace earlier ones. -/
def assign (r : RootTypes) : List Sdl.RootEntry → Except SchemaFault RootTypes
  | [] => .ok r
  | entry :: rest =>
      match entry.typeName with
      | .none => .error .untypedRoot
      | some name => (r.set entry.operation name).assign rest

end RootTypes

/-! ## Reading a document -/

structure TypeSystem where
  kinds : Table TypeKind
  objects : Table (List Field)
  roots : RootTypes
  deriving DecidableEq, Repr

namespace TypeSystem

def builtinKinds : Table TypeKind :=
  [("Int", .scalar), ("Float", .scalar), ("String", .scalar), ("Boolean", .scalar),
    ("ID", .scalar)]

def fieldOf (d : Sdl.FieldDefinition) : Field := ⟨d.name, TypeRef.ofExpr d.type⟩

/-- The type that a definition introduces, with its kind. -/
def introduced? : Sdl.Definition → Option (String × TypeKind)
  | .scalar name => some (name, .scalar)
  | .enum name => some (name, .enum)
  | .interface name => some (name, .interface)
  | .union name => some (name, .union)
  | .input name => some (name, .inputObject)
  | .object name _ => some (name, .object)
  | _ => none

def object? : Sdl.Definition → Option (String × List Field)
  | .object name fields => some (name, fields.map fieldOf)
  | _ => none

def extension? : Sdl.Definition → Option (String × List Field)
  | .objectExtension name fields => some (name, fields.map fieldOf)
  | _ => none

def schemaRoots? : Sdl.Definition → Option (List Sdl.RootEntry)
  | .schema roots => some roots
  | _ => none

def extendedRoots? : Sdl.Definition → Option (List Sdl.RootEntry)
  | .schemaExtension roots => some roots
  | _ => none

/-- The last definition of a name gives its kind. -/
def kindsOf (document : Sdl.Document) : Table TypeKind :=
  (document.filterMap introduced?).foldl (fun t entry => t.insert entry.1 entry.2)
    builtinKinds

/-- Object types stand in the order of their first definitions, each with the
fields of its last one. -/
def definedObjects (document : Sdl.Document) : Table (List Field) :=
  Table.ofList (document.filterMap object?)

/-- Adds the fields of extensions, which may stand anywhere in the document. -/
def extendObjects (objects : Table (List Field)) :
    List (String × List Field) → Except SchemaFault (Table (List Field))
  | [] => .ok objects
  | (name, fields) :: rest =>
      if objects.contains name then
        extendObjects (objects.modify name (· ++ fields)) rest
      else .error .undefinedExtension

/-- The last schema definition replaces the conventional roots, and extensions
of the schema override single operations. -/
def rootsOf (document : Sdl.Document) : Except SchemaFault RootTypes := do
  let defined ←
    match (document.filterMap schemaRoots?).getLast? with
    | none => pure RootTypes.conventional
    | some entries => RootTypes.none.assign entries
  defined.assign (document.filterMap extendedRoots?).flatten

def ofDocument (document : Sdl.Document) : Except SchemaFault TypeSystem := do
  let objects ← extendObjects (definedObjects document) (document.filterMap extension?)
  let roots ← rootsOf document
  return ⟨kindsOf document, objects, roots⟩

/-! ## Looking up types -/

def kindOf (ts : TypeSystem) (name : String) : Option TypeKind := ts.kinds.get? name

def object (ts : TypeSystem) (name : String) : Option ObjectType :=
  (ts.objects.get? name).map (ObjectType.mk name)

def isRoot (ts : TypeSystem) (name : String) : Bool := ts.roots.has name

def objectTypes (ts : TypeSystem) : List ObjectType :=
  ts.objects.map fun (name, fields) => ⟨name, fields⟩

/-- Names of this form belong to introspection. -/
def isReserved (name : String) : Bool := ['_', '_'].isPrefixOf name.toList

/-- The object types that get fragments: neither root operation types nor types
of introspection. -/
def fragmentTypes (ts : TypeSystem) : List ObjectType :=
  ts.objectTypes.filter fun object => !isReserved object.name && !ts.isRoot object.name

def classify (ts : TypeSystem) (owner : String) (field : Field) :
    Except UnknownFieldType FieldKind :=
  let target := field.type.innermost
  match ts.kindOf target with
  | none => .error ⟨owner, field.name, target⟩
  | some .scalar => .ok .scalar
  | some .enum => .ok .enum
  | some .object => .ok (.object target)
  | some .interface | some .union | some .inputObject => .ok (.other target)

end TypeSystem

end GraphqlFragments
