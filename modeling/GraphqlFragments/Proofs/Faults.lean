import GraphqlFragments.Logged
/-!
# First faults

A step that looks at one item either gives a value or reports a fault, and
which of the two happens does not depend on any other step. A traversal by such
steps reports the first fault of its items and otherwise gives all values.
-/

namespace GraphqlFragments

variable {ε α β : Type}

/-- A value, or the fault that stands in its way. -/
def unlessFault : Option ε → α → Except ε α
  | none, value => .ok value
  | some fault, _ => .error fault

theorem unlessFault_eq_ok_iff {fault? : Option ε} {value a : α} :
    unlessFault fault? value = .ok a ↔ fault? = none ∧ value = a := by
  cases fault? <;> simp [unlessFault]

theorem map_unlessFault (f : α → β) (fault? : Option ε) (value : α) :
    f <$> unlessFault fault? value = unlessFault fault? (f value) := by
  cases fault? <;> rfl

theorem mapM_unlessFault (fault? : α → Option ε) (value : α → β) (items : List α) :
    items.mapM (fun a => unlessFault (fault? a) (value a)) =
      unlessFault (items.findSome? fault?) (items.map value) := by
  induction items with
  | nil => rfl
  | cons a rest ih =>
      rw [List.mapM_cons, ih, List.findSome?_cons]
      cases fault? a with
      | some fault => rfl
      | none => cases rest.findSome? fault? <;> rfl

/-- A step after another gives a value only after a value of the first one. -/
theorem exists_of_bind_eq_ok {x : Except ε α} {f : α → Except ε β} {b : β}
    (h : x >>= f = .ok b) : ∃ a, x = .ok a ∧ f a = .ok b := by
  cases x with
  | error fault => cases h
  | ok a => exact ⟨a, rfl, h⟩

theorem eq_ok_of_toOption {x : Except ε α} {a : α} (h : x.toOption = some a) : x = .ok a := by
  cases x with
  | error fault => cases h
  | ok b => exact congrArg _ (Option.some.inj h)

namespace Logged

theorem result_ofExcept (failure : ε → Failure) (x : Except ε α) :
    (ofExcept failure x).result = x.mapError failure := by
  cases x <;> rfl

/-- A step that reports nothing fails exactly if what it is made of does. -/
theorem result_ofExcept_eq_ok_iff {failure : ε → Failure} {x : Except ε α} {a : α} :
    (ofExcept failure x).result = .ok a ↔ x = .ok a := by
  cases x with
  | error fault => exact ⟨nofun, nofun⟩
  | ok b => exact ⟨fun h => congrArg _ (Except.ok.inj h), fun h => congrArg _ (Except.ok.inj h)⟩

theorem result_bind_eq_ok_iff {x : Logged α} {f : α → Logged β} {b : β} :
    (x >>= f).result = .ok b ↔ ∃ a, x.result = .ok a ∧ (f a).result = .ok b := by
  rw [result_bind]
  cases hx : x.result with
  | error failure => exact ⟨nofun, nofun⟩
  | ok a =>
      refine ⟨fun h => ⟨a, rfl, h⟩, ?_⟩
      rintro ⟨_, ha, h⟩
      cases ha
      exact h

theorem result_mapM (f : α → Logged β) (items : List α) :
    (items.mapM f).result = items.mapM fun a => (f a).result := by
  induction items with
  | nil => rfl
  | cons a rest ih =>
      rw [List.mapM_cons, List.mapM_cons, result_bind]
      cases hfirst : (f a).result with
      | error failure => rfl
      | ok b =>
          change (rest.mapM f >>= fun bs => pure (b :: bs)).result = _
          rw [result_bind, ih]
          rfl

end Logged

end GraphqlFragments
