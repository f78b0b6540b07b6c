import GraphqlFragments.TypeRef
/-!
# Definitions of a schema document

What a schema document says about its types: the named types, the fields of
object types and the root operation types, in the order of the document. All
else in it, such as directives and descriptions, has no effect.
-/

namespace GraphqlFragments.Sdl

/-- A type as the grammar has it: a name or a list, made non-null by one mark at
most. -/
inductive TypeExpr
  | named (name : String) (required : Bool)
  | list (item : TypeExpr) (required : Bool)
  deriving DecidableEq, Repr

structure FieldDefinition where
  name : String
  type : TypeExpr
  deriving DecidableEq, Repr

inductive Operation
  | query
  | mutation
  | subscription
  deriving DecidableEq, Repr

/-- An entry of a schema definition; its type name can be missing. -/
structure RootEntry where
  operation : Operation
  typeName : Option String
  deriving DecidableEq, Repr

inductive Definition
  | scalar (name : String)
  | enum (name : String)
  | interface (name : String)
  | union (name : String)
  | input (name : String)
  | object (name : String) (fields : List FieldDefinition)
  | objectExtension (name : String) (fields : List FieldDefinition)
  | schema (roots : List RootEntry)
  | schemaExtension (roots : List RootEntry)
  deriving DecidableEq, Repr

abbrev Document := List Definition

namespace TypeExpr

/-- The wrappers from the outside in, as they are written. -/
def wrappers : TypeExpr → List Wrapper
  | named _ false => []
  | named _ true => [.nonNull]
  | list item false => .list :: item.wrappers
  | list item true => .nonNull :: .list :: item.wrappers

def innermost : TypeExpr → String
  | named name _ => name
  | list item _ => item.innermost

end TypeExpr

end GraphqlFragments.Sdl

namespace GraphqlFragments.TypeRef

/-- Goes through the lists of a type down to its name and collects the wrappers
on the way, from the outside in. -/
def collect (passed : List Wrapper) : Sdl.TypeExpr → List Wrapper × String
  | .named name false => (passed, name)
  | .named name true => (passed ++ [.nonNull], name)
  | .list item false => collect (passed ++ [.list]) item
  | .list item true => collect (passed ++ [.nonNull, .list]) item

/-- The wrappers of a type are collected first and then put back around its name.
-/
def ofExpr (e : Sdl.TypeExpr) : TypeRef :=
  let (ws, name) := collect [] e
  wrap ws name

/-- Whatever has been passed before, the wrappers of the type come after it. -/
theorem collect_eq (passed : List Wrapper) (e : Sdl.TypeExpr) :
    collect passed e = (passed ++ e.wrappers, e.innermost) := by
  induction e generalizing passed with
  | named name mark =>
      cases mark with
      | false => exact congrArg (·, name) (List.append_nil passed).symm
      | true => rfl
  | list item mark ih =>
      cases mark with
      | false =>
          rw [collect, ih, List.append_assoc]
          rfl
      | true =>
          rw [collect, ih, List.append_assoc]
          rfl

theorem ofExpr_eq_wrap (e : Sdl.TypeExpr) : ofExpr e = wrap e.wrappers e.innermost := by
  rw [ofExpr, collect_eq, List.nil_append]

@[simp] theorem wrappers_ofExpr (e : Sdl.TypeExpr) :
    (ofExpr e).wrappers = e.wrappers := by
  rw [ofExpr_eq_wrap, wrappers_wrap]

@[simp] theorem innermost_ofExpr (e : Sdl.TypeExpr) :
    (ofExpr e).innermost = e.innermost := by
  rw [ofExpr_eq_wrap, innermost_wrap]

end GraphqlFragments.TypeRef
