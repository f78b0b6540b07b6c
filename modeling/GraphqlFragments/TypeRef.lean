/-!
# Type references

The declared type of a field: a named type inside any number of list and
non-null wrappers.
-/

namespace GraphqlFragments

inductive Wrapper
  | list
  | nonNull
  deriving DecidableEq, Repr

inductive TypeRef
  | named (name : String)
  | list (item : TypeRef)
  | nonNull (inner : TypeRef)
  deriving DecidableEq, Repr

namespace TypeRef

/-- The name below all wrappers. -/
def innermost : TypeRef → String
  | named name => name
  | list item => item.innermost
  | nonNull inner => inner.innermost

/-- The wrappers from the outside in. -/
def wrappers : TypeRef → List Wrapper
  | named _ => []
  | list item => .list :: item.wrappers
  | nonNull inner => .nonNull :: inner.wrappers

/-- Puts wrappers, given from the outside in, around a named type. -/
def wrap (ws : List Wrapper) (name : String) : TypeRef :=
  ws.foldr (fun w inner => match w with | .list => list inner | .nonNull => nonNull inner)
    (named name)

theorem wrappers_wrap (ws : List Wrapper) (name : String) : (wrap ws name).wrappers = ws := by
  induction ws with
  | nil => rfl
  | cons w ws ih => cases w <;> exact congrArg (_ :: ·) ih

theorem innermost_wrap (ws : List Wrapper) (name : String) : (wrap ws name).innermost = name := by
  induction ws with
  | nil => rfl
  | cons w ws ih => cases w <;> exact ih

theorem wrap_wrappers (t : TypeRef) : wrap t.wrappers t.innermost = t := by
  induction t with
  | named name => rfl
  | list item ih => simpa [wrap, wrappers, innermost] using ih
  | nonNull inner ih => simpa [wrap, wrappers, innermost] using ih

/-- Nothing but its wrappers and its name makes a type. -/
theorem eq_iff {t t' : TypeRef} :
    t = t' ↔ t.wrappers = t'.wrappers ∧ t.innermost = t'.innermost := by
  refine ⟨fun h => by rw [h]; exact ⟨rfl, rfl⟩, fun ⟨hwrappers, hinnermost⟩ => ?_⟩
  rw [← wrap_wrappers t, hwrappers, hinnermost, wrap_wrappers]

/-! ## Notation -/

def notationChars : TypeRef → List Char
  | named name => name.toList
  | list item => '[' :: item.notationChars ++ [']']
  | nonNull inner => inner.notationChars ++ ['!']

/-- The type as it is written in a schema. -/
def toText (t : TypeRef) : String := String.ofList t.notationChars

/-- Reads the notation from its right end: a last `!` makes the rest non-null,
brackets around all of it make a list, and anything else is a name. -/
def ofChars (cs : List Char) : TypeRef :=
  if cs.getLast? = some '!' then nonNull (ofChars cs.dropLast)
  else if cs.head? = some '[' ∧ cs.getLast? = some ']' then
    list (ofChars cs.tail.dropLast)
  else named (String.ofList cs)
termination_by cs.length
decreasing_by
  all_goals
    have : cs.length ≠ 0 := by
      intro empty
      rw [List.length_eq_zero_iff] at empty
      simp_all
    simp only [List.length_dropLast, List.length_tail]
    omega

def ofText (s : String) : TypeRef := ofChars s.toList

end TypeRef

end GraphqlFragments
