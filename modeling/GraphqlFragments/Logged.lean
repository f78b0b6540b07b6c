import GraphqlFragments.Notice
/-!
# Logged results

A computation that may fail and that reports notices on the way. What it has
reported before it fails is kept.
-/

namespace GraphqlFragments

structure Logged (α : Type) where
  log : List Notice
  result : Except Failure α

namespace Logged

variable {α β : Type}

def pure (a : α) : Logged α := ⟨[], .ok a⟩

def fail (failure : Failure) : Logged α := ⟨[], .error failure⟩

def note (notices : List Notice) : Logged Unit := ⟨notices, .ok ()⟩

def bind (x : Logged α) (f : α → Logged β) : Logged β :=
  match x.result with
  | .ok a => ⟨x.log ++ (f a).log, (f a).result⟩
  | .error failure => ⟨x.log, .error failure⟩

instance : Monad Logged where
  pure := pure
  bind := bind

instance : LawfulMonad Logged := LawfulMonad.mk' Logged
  (by
    intro α x
    obtain ⟨log, result⟩ := x
    cases result <;> simp [Functor.map, bind, pure])
  (by
    intro α β x f
    simp [Bind.bind, Pure.pure, bind, pure])
  (by
    intro α β γ x f g
    obtain ⟨log, result⟩ := x
    cases result with
    | error failure => rfl
    | ok a => cases h : (f a).result <;> simp [Bind.bind, bind, h, List.append_assoc])

/-- A computation that reports nothing, with its faults as failures. -/
def ofExcept {ε : Type} (failure : ε → Failure) : Except ε α → Logged α
  | .ok a => Logged.pure a
  | .error fault => fail (failure fault)

/-- The result does not depend on what is reported. -/
theorem result_bind (x : Logged α) (f : α → Logged β) :
    (x >>= f).result = x.result.bind fun a => (f a).result := by
  obtain ⟨log, result⟩ := x
  cases result <;> rfl

end Logged

end GraphqlFragments
