import GraphqlFragments.Proofs.Sdl.Names
/-!
# Written types

How a type is written: its wrappers around its name, a list as brackets on both sides and non-null
as a mark behind. The reader of types passes over the tokens that spell what it yields, and it is
the only type that they spell. White space and comments are no tokens, and commas mean nothing.
-/

set_option mvcgen.warning false

namespace GraphqlFragments.Sdl

open Std.Do

/-! ## Signs -/

/-- What a token says in a type: a mark itself, a name by its text. -/
def Token.sign (t : Token) : TokenKind × String := (t.kind, if t.kind = .name then t.text else "")

def markSign (mark : Char) : TokenKind × String := (.punctuator mark, "")

def nameSign (name : String) : TokenKind × String := (.name, name)

def signs (ahead : List Token) : List (TokenKind × String) :=
  (ahead.filter fun t => t.kind ≠ .punctuator ',').map Token.sign

/-- What the tokens say that are still to be read. -/
def Cursor.unread (c : Cursor) : List (TokenKind × String) := signs c.ahead

/-- A wrapper, written around what stands inside. -/
def written : Wrapper → List (TokenKind × String) → List (TokenKind × String)
  | .list, inside => markSign '[' :: inside ++ [markSign ']']
  | .nonNull, inside => inside ++ [markSign '!']

/-- The wrappers, given from the outside in, written around a name. -/
def spelled (ws : List Wrapper) (name : String) : List (TokenKind × String) :=
  ws.foldr written [nameSign name]

theorem spelled_cons (w : Wrapper) (ws : List Wrapper) (name : String) :
    spelled (w :: ws) name = written w (spelled ws name) := rfl

/-! ## Spelling is unambiguous -/

/-- The last sign tells the outermost wrapper. -/
theorem getLast?_written (w : Wrapper) (inside : List (TokenKind × String)) :
    (written w inside).getLast? =
      some (match w with | .list => markSign ']' | .nonNull => markSign '!') := by
  cases w with
  | list => exact List.getLast?_concat
  | nonNull => exact List.getLast?_concat

theorem getLast?_written_ne (w : Wrapper) (inside : List (TokenKind × String)) (name : String) :
    (written w inside).getLast? ≠ some (nameSign name) := by
  rw [getLast?_written]
  cases w <;> exact nofun

theorem written_eq_iff {w w' : Wrapper} {inside inside' : List (TokenKind × String)} :
    written w inside = written w' inside' ↔ w = w' ∧ inside = inside' := by
  refine ⟨fun h => ?_, fun ⟨hw, hinside⟩ => by rw [hw, hinside]⟩
  have hlast := congrArg List.getLast? h
  rw [getLast?_written, getLast?_written] at hlast
  cases w with
  | list =>
      cases w' with
      | list => exact ⟨rfl, List.append_cancel_right (List.cons.inj h).2⟩
      | nonNull => exact absurd hlast (by decide)
  | nonNull =>
      cases w' with
      | list => exact absurd hlast (by decide)
      | nonNull => exact ⟨rfl, List.append_cancel_right h⟩

/-- The signs of a type tell its wrappers and its name. -/
theorem spelled_eq_iff {ws ws' : List Wrapper} {name name' : String} :
    spelled ws name = spelled ws' name' ↔ ws = ws' ∧ name = name' := by
  refine ⟨fun h => ?_, fun ⟨hws, hname⟩ => by rw [hws, hname]⟩
  induction ws generalizing ws' with
  | nil =>
      cases ws' with
      | nil => exact ⟨rfl, congrArg Prod.snd (List.cons.inj h).1⟩
      | cons w' ws' => exact absurd (congrArg List.getLast? h).symm (getLast?_written_ne w' _ name)
  | cons w ws ih =>
      cases ws' with
      | nil => exact absurd (congrArg List.getLast? h) (getLast?_written_ne w _ name')
      | cons w' ws' =>
          rw [spelled_cons, spelled_cons, written_eq_iff] at h
          obtain ⟨rfl, hinside⟩ := h
          obtain ⟨rfl, rfl⟩ := ih hinside
          exact ⟨rfl, rfl⟩

/-- A mark, where it is there. -/
def markIf (mark : Char) (there : Bool) : List (TokenKind × String) :=
  if there then [markSign mark] else []

namespace TypeExpr

/-- The type as it is written. -/
def spelling (e : TypeExpr) : List (TokenKind × String) := spelled e.wrappers e.innermost

theorem spelling_named (name : String) (required : Bool) :
    (named name required).spelling = nameSign name :: markIf '!' required := by
  cases required <;> rfl

theorem spelling_list (item : TypeExpr) (required : Bool) :
    (list item required).spelling =
      markSign '[' :: item.spelling ++ markSign ']' :: markIf '!' required := by
  cases required with
  | false => rfl
  | true => exact List.append_assoc (markSign '[' :: item.spelling) [markSign ']'] [markSign '!']

end TypeExpr

/-! ## Passing over signs -/

theorem signs_settle {ahead settled : List Token} (h : Cursor.settle ahead = .ok settled) :
    signs settled = signs ahead := by
  fun_induction Cursor.settle ahead with
  | case1 =>
      cases h
      rfl
  | case2 t rest hcomma ih =>
      rw [ih h, signs, signs, List.filter_cons_of_neg (by simp [hcomma])]
  | case3 t rest problem located hfaulty => cases h
  | case4 t rest hcomma hfaulty =>
      cases h
      rfl

/-- The current token is the first to be read. -/
theorem Cursor.unread_eq_cons {c : Cursor} (hfinish : c.current.kind ≠ .finish)
    (hcomma : c.current.kind ≠ .punctuator ',') :
    c.unread = c.current.sign :: signs c.ahead.tail := by
  unfold Cursor.current at hfinish hcomma ⊢
  unfold Cursor.unread
  cases hahead : c.ahead with
  | nil =>
      rw [hahead] at hfinish
      exact absurd rfl hfinish
  | cons t rest =>
      rw [hahead] at hcomma
      exact congrArg (List.map Token.sign) (List.filter_cons_of_pos (decide_eq_true hcomma))

theorem Cursor.unread_of_mark {c : Cursor} {mark : Char} (h : c.current.kind = .punctuator mark)
    (hmark : mark ≠ ',') : c.unread = markSign mark :: signs c.ahead.tail := by
  have hcomma : c.current.kind ≠ .punctuator ',' := by
    rw [h]
    exact mt TokenKind.punctuator.inj hmark
  rw [c.unread_eq_cons (by rw [h]; exact nofun) hcomma, Token.sign, h]
  rfl

theorem Cursor.unread_of_name {c : Cursor} (h : c.current.kind = .name) :
    c.unread = nameSign c.current.text :: signs c.ahead.tail := by
  rw [c.unread_eq_cons (by rw [h]; exact nofun) (by rw [h]; exact nofun), Token.sign, h]
  rfl

namespace Parser

/-- From a cursor on, a reader passes over some signs, and its value tells which. -/
abbrev Reads {α : Type} (reader : Parser α) (c : Cursor)
    (passed : α → List (TokenKind × String)) : Prop :=
  ⦃fun start => ⌜start = c⌝⦄ reader ⦃⇓? a rest => ⌜c.unread = passed a ++ rest.unread⌝⦄

theorem signs_settle_spec (ahead : List Token) :
    ⦃⌜True⌝⦄ Cursor.settle ahead ⦃⇓? settled => ⌜signs settled = signs ahead⌝⦄ := by
  intro _
  cases h : Cursor.settle ahead with
  | error fault => trivial
  | ok settled => exact signs_settle h

theorem advance_spec (c : Cursor) :
    ⦃fun start => ⌜start = c⌝⦄ advance
    ⦃⇓? text rest => ⌜text = c.current.text ∧ rest.unread = signs c.ahead.tail⌝⦄ := by
  mvcgen [advance, -keeps_advance, -settle_spec, signs_settle_spec]
  next hc _ hsettled =>
    rw [hc] at hsettled ⊢
    exact ⟨rfl, hsettled⟩

/-- A mark that is not there leaves the cursor where it is. -/
theorem skipMark_spec (mark : Char) (hmark : mark ≠ ',') (c : Cursor) :
    ⦃fun start => ⌜start = c⌝⦄ skipMark mark
    ⦃⇓? found rest => ⌜c.unread = markIf mark found ++ rest.unread ∧
      (found = false → rest = c ∧ c.current.kind ≠ .punctuator mark)⌝⦄ := by
  mvcgen [skipMark, -keeps_skipMark, isAtMark, isAt, -keeps_isAt, kind, -keeps_kind, current,
    -keeps_advance, advance_spec]
  next hc hkind _ _ hread =>
    rw [hc] at hkind hread
    rw [Cursor.unread_of_mark (of_decide_eq_true hkind) hmark, hread.2]
    exact ⟨rfl, fun hfalse => Bool.noConfusion hfalse⟩
  next hc hkind =>
    rw [hc] at hkind ⊢
    exact ⟨rfl, rfl, fun h => hkind (decide_eq_true h)⟩

theorem reads_closeMark (mark : Char) (hmark : mark ≠ ',') (c : Cursor) :
    Reads (closeMark mark) c fun _ => [markSign mark] := by
  mvcgen [closeMark, -keeps_closeMark, -keeps_skipMark, skipMark_spec, word, -keeps_word, current]
  next hc found hfound _ hread =>
    have htrue : found = true := by simpa using hfound
    rw [hc, htrue] at hread
    exact hread.1

theorem ahead_deeper (c : Cursor) :
    ⦃fun start => ⌜start = c⌝⦄ deeper ⦃⇓? _ rest => ⌜rest.ahead = c.ahead⌝⦄ := by
  mvcgen [deeper, -keeps_deeper]
  next hc _ _ => rw [← hc]

theorem reads_typeWithin (levels : Nat) {c : Cursor} (h : isTypeStart c.current.kind) :
    Reads (typeWithin levels) c TypeExpr.spelling := by
  induction levels generalizing c with
  | zero => mvcgen [typeWithin]
  | succ levels ih =>
      mvcgen [typeWithin, nested, -keeps_nested, -keeps_skipMark, skipMark_spec, kind,
        -keeps_kind, current, -keeps_deeper, ahead_deeper, -keeps_closeMark, reads_closeMark,
        -keeps_advance, advance_spec, ih]
      next hbegins => simpa using hbegins
      next hc _ hfound inside hopening _ _ start hdeeper _ _ item behind hitem _ _ closed hclosing
          required rest hrequired =>
        have hstart : start.unread = inside.unread := congrArg signs hdeeper
        have hbehind : behind.unread = markSign ']' :: closed.unread := hclosing
        rw [hc, hfound] at hopening
        calc c.unread
            = markSign '[' :: inside.unread := hopening.1
          _ = markSign '[' :: (item.spelling ++ markSign ']' :: closed.unread) := by
              rw [← hstart, hitem, hbehind]
          _ = (TypeExpr.list item required).spelling ++ rest.unread := by
              rw [hrequired.1, TypeExpr.spelling_list, List.append_assoc]
              rfl
      next hc found hfound here hopening name behind hname required rest hrequired =>
        have hfalse : found = false := eq_false_of_ne_true hfound
        obtain ⟨rfl, hkind⟩ := hopening.2 hfalse
        rw [← hc] at h ⊢
        have hfirst : here.current.kind = .name := by simpa [isTypeStart, hkind] using h
        calc here.unread
            = nameSign name :: behind.unread := by
              rw [Cursor.unread_of_name hfirst, hname.1, hname.2]
          _ = (TypeExpr.named name required).spelling ++ rest.unread := by
              rw [hrequired.1, TypeExpr.spelling_named]
              rfl

theorem reads_type (c : Cursor) : Reads type c TypeExpr.spelling := by
  mvcgen [type, -keeps_type, kind, -keeps_kind, current, reads_typeWithin]
  next hc _ hbegins =>
    rw [hc] at hbegins
    simpa using hbegins

theorem Reads.of_run {α : Type} {reader : Parser α} {c rest : Cursor}
    {passed : α → List (TokenKind × String)} {a : α} (h : Reads reader c passed)
    (hrun : reader.run c = .ok (a, rest)) : c.unread = passed a ++ rest.unread := by
  have hwp : (wp⟦reader.run c⟧ (fun r => ⌜c.unread = passed r.1 ++ r.2.unread⌝,
      ExceptConds.true)).down := h c rfl
  rw [hrun] at hwp
  exact hwp

end Parser

/-- The type that is read is the only one that the signs behind it and in front of what is left
spell. -/
theorem unread_eq_iff_of_type {c rest : Cursor} {e : TypeExpr}
    (h : Parser.type.run c = .ok (e, rest)) {ws : List Wrapper} {name : String} :
    c.unread = spelled ws name ++ rest.unread ↔ e.wrappers = ws ∧ e.innermost = name := by
  rw [(Parser.reads_type c).of_run h, List.append_left_inj, TypeExpr.spelling, spelled_eq_iff]

end GraphqlFragments.Sdl
