import GraphqlFragments.Proofs.Json.Values
/-!
# Reading the same text in two ways

A reader for documents of some sort follows the reader for any document: wherever the one
yields a value, the other one yields a value that belongs to it, and both leave the same text.
-/

namespace GraphqlFragments.Json.Reader

variable {α β γ δ σ τ : Type} {r : Reader α} {g : Reader β} {k : α → Reader γ}
  {l : β → Reader δ} {R : α → β → Prop} {S : γ → δ → Prop}

theorem run_bind_eq_ok_iff {cs rest : List Char} {c : γ} :
    (r >>= k).run cs = .ok (c, rest) ↔
      ∃ a mid, r.run cs = .ok (a, mid) ∧ (k a).run mid = .ok (c, rest) := by
  rw [StateT.run_bind]
  cases r.run cs with
  | error fault => exact ⟨nofun, nofun⟩
  | ok result =>
      refine ⟨fun h => ⟨result.1, result.2, rfl, h⟩, ?_⟩
      rintro ⟨a, mid, heq, h⟩
      cases heq
      exact h

/-- Wherever the first reader yields a value, the second one yields a related value and leaves
the same text. -/
def Follows (r : Reader α) (g : Reader β) (R : α → β → Prop) : Prop :=
  ∀ cs a rest, r.run cs = .ok (a, rest) → ∃ b, g.run cs = .ok (b, rest) ∧ R a b

namespace Follows

theorem imp {R' : α → β → Prop} (h : Follows r g R) (himp : ∀ a b, R a b → R' a b) :
    Follows r g R' := by
  intro cs a rest hrun
  obtain ⟨b, hb, hab⟩ := h cs a rest hrun
  exact ⟨b, hb, himp a b hab⟩

theorem pure {a : α} {b : β} (h : R a b) : Follows (pure a) (pure b) R := by
  intro cs c rest hrun
  cases hrun
  exact ⟨b, rfl, h⟩

theorem refl (r : Reader α) : Follows r r Eq := fun _ a _ hrun => ⟨a, hrun, rfl⟩

theorem bind (hr : Follows r g R) (hk : ∀ a b, R a b → Follows (k a) (l b) S) :
    Follows (r >>= k) (g >>= l) S := by
  intro cs c rest hrun
  obtain ⟨a, mid, hfirst, hsecond⟩ := run_bind_eq_ok_iff.mp hrun
  obtain ⟨b, hb, hab⟩ := hr cs a mid hfirst
  obtain ⟨d, hd, hcd⟩ := hk a b hab mid c rest hsecond
  exact ⟨d, run_bind_eq_ok_iff.mpr ⟨b, mid, hb, hd⟩, hcd⟩

/-- Both readers begin with the same step. -/
theorem seq {l : α → Reader δ} (hk : ∀ a, Follows (k a) (l a) S) :
    Follows (r >>= k) (r >>= l) S :=
  (refl r).bind fun a _ hab => hab ▸ hk a

theorem of_never (h : Yields r fun _ => False) : Follows r g R :=
  fun cs a rest hrun => (h cs a rest hrun).elim

theorem ite {c : Prop} [Decidable c] {r' : Reader α} {g' : Reader β} (h : c → Follows r g R)
    (h' : ¬c → Follows r' g' R) : Follows (if c then r else r') (if c then g else g') R := by
  by_cases hc : c
  · rw [if_pos hc, if_pos hc]
    exact h hc
  · rw [if_neg hc, if_neg hc]
    exact h' hc

/-- Both readers may fail alike before they go on. -/
theorem guard {c : Prop} [Decidable c] {step : Reader Unit} {k : Unit → Reader γ}
    {l : Unit → Reader δ} (hstep : Yields step fun _ => False)
    (h : ¬c → Follows (k ()) (l ()) S) :
    Follows (if c then step >>= k else k ()) (if c then step >>= l else l ()) S :=
  .ite (fun _ => .of_never (hstep.bind fun _ hfalse => hfalse.elim)) h

/-- The first reader may fail before it goes on. -/
theorem check {c : Prop} [Decidable c] {step : Reader Unit} {k : Unit → Reader α}
    (hstep : Yields step fun _ => False) (h : ¬c → Follows (k ()) g R) :
    Follows (if c then step >>= k else k ()) g R := by
  by_cases hc : c
  · rw [if_pos hc]
    exact of_never (hstep.bind fun _ hfalse => hfalse.elim)
  · rw [if_neg hc]
    exact h hc

end Follows

/-- Where the first reader takes a text for a document, the second one does so, too. -/
theorem Follows.readDocument {text : String} {a : α} (h : Follows r g R)
    (ha : readDocument r text = .ok a) : ∃ b, Json.readDocument g text = .ok b ∧ R a b := by
  unfold Json.readDocument at ha
  cases hrun : r.run text.toList with
  | error fault =>
      rw [hrun] at ha
      cases ha
  | ok result =>
      rw [hrun] at ha
      cases ha
      obtain ⟨b, hb, hab⟩ := h text.toList result.1 result.2 hrun
      refine ⟨b, ?_, hab⟩
      rw [Json.readDocument, hb]

/-! ## First characters -/

theorem head?_of_nextOr {atEnd : Cause} {cs rest : List Char} {c : Char}
    (h : (nextOr atEnd).run cs = .ok (c, rest)) : rest.head? = some c ∧ isBlank c = false := by
  have hnext : next.run cs = .ok ((cs.dropWhile isBlank).head?, cs.dropWhile isBlank) := rfl
  rw [nextOr, run_bind_of_ok hnext] at h
  cases hdrop : cs.dropWhile isBlank with
  | nil =>
      rw [hdrop] at h
      cases h
  | cons d more =>
      rw [hdrop] at h
      cases h
      have hhead := List.head?_dropWhile_not isBlank cs
      rw [hdrop] at hhead
      exact ⟨rfl, by simpa using hhead⟩

theorem yields_wrongShape (wanted : Shape) :
    Yields (wrongShape (α := α) wanted) fun _ => False := by
  unfold wrongShape
  refine .seq fun start => ?_
  split
  · exact yields_fail _
  · exact yields_fail _
  · exact .seq fun _ => yields_fail _

/-- Where both readers look at the next character, the text that is left begins with it. -/
theorem Follows.next {atEnd : Cause} {k : Char → Reader γ} {l : Char → Reader δ}
    (h : ∀ c cs a rest, cs.head? = some c → isBlank c = false → (k c).run cs = .ok (a, rest) →
      ∃ b, (l c).run cs = .ok (b, rest) ∧ S a b) :
    Follows (nextOr atEnd >>= k) (nextOr atEnd >>= l) S := by
  intro cs a rest hrun
  obtain ⟨c, mid, hnext, hmore⟩ := run_bind_eq_ok_iff.mp hrun
  obtain ⟨hhead, hblank⟩ := head?_of_nextOr hnext
  obtain ⟨b, hb, hab⟩ := h c mid a rest hhead hblank hmore
  exact ⟨b, run_bind_eq_ok_iff.mpr ⟨c, mid, hnext, hb⟩, hab⟩

/-- A reader for values that begin with some character follows one that looks at the first
character. -/
theorem Follows.begins {start : Char} {wanted : Shape} {k : Unit → Reader γ}
    {l : Char → Reader δ} (h : Follows (k ()) (l start) S) :
    Follows (begins start wanted >>= k) (nextOr .endInValue >>= l) S := by
  rw [Reader.begins, bind_assoc]
  refine .seq fun c => ?_
  by_cases hc : c = start
  · rw [if_neg fun hne => hne hc, pure_bind, hc]
    exact h
  · rw [if_pos hc]
    exact of_never ((yields_wrongShape wanted).bind fun _ hfalse => hfalse.elim)

/-! ## Containers -/

section Containers

variable {I : σ → τ → Prop} {member : String → σ → Reader σ} {member' : String → τ → Reader τ}
  {s : σ} {t : τ}

theorem follows_membersWithin
    (hmember : ∀ key s t, I s t → Follows (member key s) (member' key t) I) (rounds : Nat)
    (hst : I s t) : Follows (membersWithin member rounds s) (membersWithin member' rounds t) I := by
  induction rounds generalizing s t with
  | zero => exact .of_never (yields_failPast _)
  | succ n ih =>
      rw [membersWithin, membersWithin]
      refine .seq fun c => .ite (fun _ => .pure hst) fun _ => ?_
      refine .guard (yields_failPast _) fun _ => .seq fun _ => .seq fun c => ?_
      refine .guard (yields_failPast _) fun _ => .guard (yields_failPast _) fun _ => ?_
      exact .seq fun key => (hmember key s t hst).bind fun _ _ hnext => ih hnext

theorem follows_members
    (hmember : ∀ key s t, I s t → Follows (member key s) (member' key t) I) (hst : I s t) :
    Follows (Reader.members member s) (Reader.members member' t) I := by
  unfold Reader.members
  refine .seq fun _ => .seq fun c => .ite (fun _ => .pure hst) fun _ => ?_
  refine .guard (yields_failPast _) fun _ => ?_
  refine .seq fun key => (hmember key s t hst).bind fun _ _ hfirst => .seq fun rest => ?_
  exact follows_membersWithin hmember _ hfirst

/-- Two tables have the same names, with values that belong to each other. -/
def SameNames (R : α → β → Prop) (t : Table α) (u : Table β) : Prop :=
  ∀ name, Option.Rel R (t.get? name) (u.get? name)

theorem SameNames.insert {t : Table α} {u : Table β} (h : SameNames R t u) (name : String) {a : α}
    {b : β} (hab : R a b) : SameNames R (t.insert name a) (u.insert name b) := by
  intro other
  by_cases hother : other = name
  · rw [hother, Table.get?_insert_self, Table.get?_insert_self]
    exact .some hab
  · rw [Table.get?_insert_of_ne _ _ hother, Table.get?_insert_of_ne _ _ hother]
    exact h other

theorem SameNames.exists_right {t : Table α} {u : Table β} (h : SameNames R t u) {name : String}
    {a : α} (ha : t.get? name = some a) : ∃ b, u.get? name = some b ∧ R a b := by
  have hname := h name
  rw [ha] at hname
  cases hb : u.get? name with
  | none =>
      rw [hb] at hname
      cases hname
  | some b =>
      rw [hb] at hname
      cases hname with
      | some hab => exact ⟨b, rfl, hab⟩

theorem SameNames.exists_left {t : Table α} {u : Table β} (h : SameNames R t u) {name : String}
    {b : β} (hb : u.get? name = some b) : ∃ a, t.get? name = some a ∧ R a b := by
  have hname := h name
  rw [hb] at hname
  cases ha : t.get? name with
  | none =>
      rw [ha] at hname
      cases hname
  | some a =>
      rw [ha] at hname
      cases hname with
      | some hab => exact ⟨a, rfl, hab⟩

theorem follows_table {value : Reader α} {value' : Reader β} (h : Follows value value' R) :
    Follows (Reader.table value) (Reader.table value') (SameNames R) := by
  have hmember (key : String) (t : Table α) (u : Table β) (htu : SameNames R t u) :
      Follows (tableMember value key t) (tableMember value' key u) (SameNames R) := by
    unfold tableMember
    exact .seq fun _ => h.bind fun _ _ hab => .pure (htu.insert key hab)
  exact (follows_members hmember fun _ => .none).bind fun _ _ htu => .seq fun _ => .pure htu

end Containers

/-! ## Values -/

variable {levels : Nat}

/-- How a value goes on after its first character. -/
def valueFrom (levels : Nat) (c : Char) : Reader Json :=
  match levels with
  | 0 => if c = '[' || c = '{' then failPast .tooDeep else scalar
  | n + 1 =>
      if c = '[' then return .array (← items (value n))
      else if c = '{' then return .object (← Reader.table (value n))
      else scalar

theorem value_eq (levels : Nat) : value levels = nextOr .endInValue >>= valueFrom levels := by
  cases levels <;> rfl

theorem valueFrom_of_plain {c : Char} (hlist : c ≠ '[') (hobject : c ≠ '{') (levels : Nat) :
    valueFrom levels c = scalar := by
  cases levels <;> simp [valueFrom, hlist, hobject]

/-- A reader for the members of an object, after its opening brace, as one for values. -/
theorem follows_object (wanted : Shape) {S : α → Table Json → Prop}
    (h : Follows r (Reader.table (value levels)) S) :
    Follows (begins '{' wanted >>= fun _ => r) (value (levels + 1))
      (fun a v => ∃ t, v = .object t ∧ S a t) := by
  rw [value_eq]
  refine .begins ?_
  show Follows r (Reader.table (value levels) >>= fun t => Pure.pure (Json.object t)) _
  rw [← bind_pure r]
  exact h.bind fun _ t ht => .pure ⟨t, rfl, ht⟩

theorem eq_null_of_run_scalar {cs rest : List Char} {v : Json} (hhead : cs.head? = some 'n')
    (h : scalar.run cs = .ok (v, rest)) : v = .null := by
  rw [scalar, run_bind_of_ok (run_peek cs), hhead] at h
  obtain ⟨_, _, -, hletters⟩ := run_bind_eq_ok_iff.mp h
  obtain ⟨_, _, -, hnull⟩ := run_bind_eq_ok_iff.mp hletters
  cases hnull
  rfl

/-- A string where one is wanted is a value. -/
theorem run_scalar_of_textOf {wanted : Shape} {c : Char} {cs rest : List Char} {s : String}
    (hhead : cs.head? = some c) (hblank : isBlank c = false)
    (h : (textOf wanted).run cs = .ok (s, rest)) :
    c = '"' ∧ scalar.run cs = .ok (.string s, rest) := by
  rw [textOf, Reader.begins, bind_assoc] at h
  obtain ⟨d, mid, hnext, hmore⟩ := run_bind_eq_ok_iff.mp h
  have hsame : (nextOr .endInValue).run ([] ++ cs) = .ok (c, cs) :=
    run_nextOr allBlank_nil hhead hblank
  rw [List.nil_append, hnext] at hsame
  cases hsame
  by_cases hc : c = '"'
  · refine ⟨hc, ?_⟩
    rw [if_neg fun hne => hne hc, pure_bind] at hmore
    have hscalar : scalar.run cs = (string >>= fun s => Pure.pure (Json.string s)).run cs := by
      rw [scalar, run_bind_of_ok (run_peek cs), hhead, hc]
      rfl
    rw [hscalar, run_bind_of_ok hmore]
    rfl
  · rw [if_pos hc] at hmore
    obtain ⟨_, _, hshape, -⟩ := run_bind_eq_ok_iff.mp hmore
    exact (yields_wrongShape wanted _ _ _ hshape).elim

end GraphqlFragments.Json.Reader
