import GraphqlFragments.Json.Reader
/-!
# Running readers

Two views of a reader. On a text that begins with what it expects, its run is known
step by step (`run_bind_of_ok` and the lemmas that go with it). Whatever the text, all
that it can yield has some property (`Yields`).
-/

namespace GraphqlFragments.Json.Reader

variable {α β σ : Type}

/-! ## Runs -/

theorem run_bind_of_ok {r : Reader α} {k : α → Reader β} {cs rest : List Char} {a : α}
    (h : r.run cs = .ok (a, rest)) : (r >>= k).run cs = (k a).run rest := by
  rw [StateT.run_bind, h]
  rfl

theorem run_pure (a : α) (cs : List Char) : (pure a : Reader α).run cs = .ok (a, cs) := rfl

theorem run_peek (cs : List Char) : peek.run cs = .ok (cs.head?, cs) := rfl

theorem run_skip (cs : List Char) : skip.run cs = .ok ((), cs.tail) := rfl

theorem run_rest (cs : List Char) : rest.run cs = .ok (cs, cs) := rfl

/-- Only blank characters. -/
def AllBlank (cs : List Char) : Prop := ∀ c ∈ cs, isBlank c = true

theorem allBlank_nil : AllBlank [] := fun _ hc => nomatch hc

theorem allBlank_singleton {c : Char} (hc : isBlank c = true) : AllBlank [c] := by
  intro d hd
  rw [List.mem_singleton.mp hd]
  exact hc

section Blanks

variable {blank cs : List Char} (hblank : AllBlank blank)
include hblank

/-- Blank characters in front do not count. -/
theorem run_next (hcs : ∀ c, cs.head? = some c → isBlank c = false) :
    next.run (blank ++ cs) = .ok (cs.head?, cs) := by
  have hdrop : (blank ++ cs).dropWhile isBlank = cs := by
    rw [List.dropWhile_append_of_pos hblank]
    cases cs with
    | nil => rfl
    | cons c rest => rw [List.dropWhile_cons_of_neg (by rw [hcs c rfl]; exact Bool.false_ne_true)]
  change (Except.ok (((blank ++ cs).dropWhile isBlank).head?, (blank ++ cs).dropWhile isBlank) :
    Except Fault (Option Char × List Char)) = _
  rw [hdrop]

theorem run_nextOr {c : Char} {atEnd : Cause} (hcs : cs.head? = some c)
    (hc : isBlank c = false) : (nextOr atEnd).run (blank ++ cs) = .ok (c, cs) := by
  have hnext : next.run (blank ++ cs) = .ok (some c, cs) := by
    rw [← hcs]
    refine run_next hblank fun d hd => ?_
    rw [hcs] at hd
    cases hd
    exact hc
  rw [nextOr, run_bind_of_ok hnext]
  rfl

theorem run_begins {start : Char} {wanted : Shape} (hcs : cs.head? = some start)
    (hstart : isBlank start = false) :
    (begins start wanted).run (blank ++ cs) = .ok ((), cs) := by
  rw [begins, run_bind_of_ok (run_nextOr hblank hcs hstart), if_neg fun h => h rfl]
  rfl

/-- Nothing but blanks may be left at the end. -/
theorem run_finish : finish.run blank = .ok ((), []) := by
  have hnext : next.run (blank ++ []) = .ok (none, []) :=
    run_next hblank fun c hc => nomatch hc
  rw [List.append_nil] at hnext
  rw [finish, run_bind_of_ok hnext]
  rfl

end Blanks

theorem run_nextOr_cons {c : Char} {cs : List Char} {atEnd : Cause} (hc : isBlank c = false) :
    (nextOr atEnd).run (c :: cs) = .ok (c, c :: cs) :=
  run_nextOr allBlank_nil rfl hc

theorem run_colon (cs : List Char) : colon.run (':' :: cs) = .ok ((), cs) := rfl

theorem run_closeObject (cs : List Char) : closeObject.run ('}' :: cs) = .ok ((), cs) := rfl

/-! ## What a reader can yield -/

/-- All values that a reader yields, whatever the text, have a property. -/
def Yields (r : Reader α) (P : α → Prop) : Prop :=
  ∀ cs a rest, r.run cs = .ok (a, rest) → P a

variable {r : Reader α} {k : α → Reader β} {P : α → Prop} {Q : β → Prop}

theorem Yields.pure {a : α} (h : P a) : Yields (pure a) P := by
  intro cs b rest hrun
  cases hrun
  exact h

theorem Yields.true (r : Reader α) : Yields r fun _ => True := fun _ _ _ _ => trivial

theorem Yields.bind (hr : Yields r P) (hk : ∀ a, P a → Yields (k a) Q) : Yields (r >>= k) Q := by
  intro cs b rest hrun
  rw [StateT.run_bind] at hrun
  cases hfirst : r.run cs with
  | error fault =>
      rw [hfirst] at hrun
      cases hrun
  | ok result =>
      rw [hfirst] at hrun
      exact hk result.1 (hr cs result.1 result.2 hfirst) result.2 b rest hrun

/-- A step whose value does not matter. -/
theorem Yields.seq (hk : ∀ a, Yields (k a) Q) : Yields (r >>= k) Q :=
  (Yields.true r).bind fun a _ => hk a

theorem Yields.ite {c : Prop} [Decidable c] {r s : Reader α} (hr : c → Yields r P)
    (hs : ¬c → Yields s P) : Yields (if c then r else s) P := by
  by_cases h : c
  · rw [if_pos h]
    exact hr h
  · rw [if_neg h]
    exact hs h

/-- It does not matter whether a step is taken first. -/
theorem Yields.optional {c : Prop} [Decidable c] {step : Reader Unit} {k : Unit → Reader β}
    (hk : ∀ u, Yields (k u) Q) : Yields (if c then step >>= k else k ()) Q :=
  .ite (fun _ => .seq hk) fun _ => hk ()

theorem yields_fail (cause : Cause) : Yields (fail cause) P := by
  intro cs a rest hrun
  cases hrun

theorem yields_failAfter (bytes : Nat) (cause : Cause) : Yields (failAfter bytes cause) P := by
  intro cs a rest hrun
  cases hrun

theorem yields_failPast (cause : Cause) : Yields (failPast cause) P := yields_failAfter 1 cause

/-- What holds of all that a reader yields holds of what a document is read as. -/
theorem Yields.readDocument {text : String} {a : α} (hr : Yields r P)
    (h : readDocument r text = .ok a) : P a := by
  unfold Json.readDocument at h
  cases hrun : r.run text.toList with
  | error fault =>
      rw [hrun] at h
      cases h
  | ok result =>
      rw [hrun] at h
      cases h
      exact hr text.toList result.1 result.2 hrun

end GraphqlFragments.Json.Reader
