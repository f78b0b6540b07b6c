import GraphqlFragments.Proofs.Json.Reading
/-!
# Reading back words, integers and strings

What is printed of a value that is no container is read as that value, whatever
follows it: a string ends with its quote, and an integer where no character follows
that could go on with a number.
-/

namespace GraphqlFragments.Json.Reader

open Text (utf8Size isHexDigit ofHexDigits isSurrogate)

variable {cs rest : List Char} {c : Char}

/-! ## Strings -/

theorem length_le_utf8Size (cs : List Char) : cs.length ≤ utf8Size cs := by
  induction cs with
  | nil => exact Nat.le_refl 0
  | cons c rest ih =>
      rw [List.length_cons, utf8Size]
      have hsize : 0 < c.utf8Size := c.utf8Size_pos
      omega

theorem run_fourHexDigits (hlength : cs.length = 4) (hdigits : cs.all isHexDigit = true) :
    fourHexDigits.run (cs ++ rest) = .ok (ofHexDigits cs, rest) := by
  have hsize : ¬utf8Size (cs ++ rest) < 4 := by
    have hbound := length_le_utf8Size (cs ++ rest)
    rw [List.length_append, hlength] at hbound
    omega
  have htake : (cs ++ rest).take 4 = cs := by rw [← hlength, List.take_left]
  have hdrop : (cs ++ rest).drop 4 = rest := by rw [← hlength, List.drop_left]
  rw [fourHexDigits, run_bind_of_ok (run_rest _), if_neg hsize, htake, if_pos hdigits, hdrop]
  rfl

theorem run_unicodeEscape (hlength : cs.length = 4) (hdigits : cs.all isHexDigit = true)
    (hchar : isSurrogate (ofHexDigits cs) = false) :
    unicodeEscape.run (cs ++ rest) = .ok (Char.ofNat (ofHexDigits cs), rest) := by
  rw [unicodeEscape, run_bind_of_ok (run_fourHexDigits hlength hdigits), hchar]
  rfl

/-- The digits that stand for a control character. -/
theorem hexDigits_of_control : ∀ n < 0x20,
    let digits := (if n < 0x10 then ['0', '0', '0'] else ['0', '0']) ++ Text.toHexDigits n
    digits.length = 4 ∧ digits.all isHexDigit ∧ ofHexDigits digits = n := by
  decide

/-- What stands for a character that a string may not hold as it is: a backslash, and
an escape that is read as the character. -/
theorem exists_escape (h : c.toNat < 0x20 ∨ c = '"' ∨ c = '\\') :
    ∃ tail, stringChar c = '\\' :: tail ∧
      ∀ rest, escape.run (tail ++ rest) = .ok (c, rest) := by
  unfold stringChar
  split
  · exact ⟨['"'], rfl, fun _ => rfl⟩
  · exact ⟨['\\'], rfl, fun _ => rfl⟩
  · exact ⟨['b'], rfl, fun _ => rfl⟩
  · exact ⟨['f'], rfl, fun _ => rfl⟩
  · exact ⟨['n'], rfl, fun _ => rfl⟩
  · exact ⟨['r'], rfl, fun _ => rfl⟩
  · exact ⟨['t'], rfl, fun _ => rfl⟩
  · next hquote hbackslash _ _ _ _ _ =>
      have hcontrol : c.toNat < 0x20 :=
        h.resolve_right fun h => h.elim hquote hbackslash
      obtain ⟨hlength, hdigits, hvalue⟩ := hexDigits_of_control c.toNat hcontrol
      have hchar : isSurrogate c.toNat = false := by
        simp only [isSurrogate, Bool.and_eq_false_iff, decide_eq_false_iff_not]
        omega
      refine ⟨'u' :: ((if c.toNat < 0x10 then ['0', '0', '0'] else ['0', '0']) ++
        Text.toHexDigits c.toNat), ?_, fun rest => ?_⟩
      · by_cases hsmall : c.toNat < 0x10
        · simp [hsmall]
        · simp [hsmall, hcontrol]
      · have hcode : unicodeEscape.run
            ((if c.toNat < 0x10 then ['0', '0', '0'] else ['0', '0']) ++
              Text.toHexDigits c.toNat ++ rest) = .ok (c, rest) := by
          rw [run_unicodeEscape hlength hdigits (by rwa [hvalue]), hvalue, Char.ofNat_toNat]
        exact hcode

theorem stringChar_of_plain (h : ¬(c.toNat < 0x20 ∨ c = '"' ∨ c = '\\')) :
    stringChar c = [c] := by
  unfold stringChar
  split
  · exact absurd (by decide) h
  · exact absurd (by decide) h
  · exact absurd (by decide) h
  · exact absurd (by decide) h
  · exact absurd (by decide) h
  · exact absurd (by decide) h
  · exact absurd (by decide) h
  · have hplain : ¬c.toNat < 0x20 := fun hc => h (Or.inl hc)
    rw [if_neg (by omega), if_neg hplain]

theorem run_take (c : Char) (cs : List Char) : take.run (c :: cs) = .ok (c, cs) := rfl

/-- A character is read back in front of those that follow it. -/
theorem run_stringWithin_cons {rounds : Nat} {more ds : List Char}
    (h : (stringWithin rounds).run more = .ok (ds, rest)) :
    (stringWithin (rounds + 1)).run (stringChar c ++ more) = .ok (c :: ds, rest) := by
  by_cases hescape : c.toNat < 0x20 ∨ c = '"' ∨ c = '\\'
  · obtain ⟨tail, htail, hrun⟩ := exists_escape hescape
    rw [htail, stringWithin, List.cons_append, run_bind_of_ok (run_take _ _),
      if_neg (by decide), if_pos rfl, run_bind_of_ok (hrun more), run_bind_of_ok h]
    rfl
  · rw [stringChar_of_plain hescape]
    simp only [not_or] at hescape
    obtain ⟨hcontrol, hquote, hbackslash⟩ := hescape
    rw [stringWithin, List.singleton_append, run_bind_of_ok (run_take _ _), if_neg hquote,
      if_neg hbackslash, if_neg hcontrol, run_bind_of_ok h]
    rfl

theorem run_stringWithin {rounds : Nat} (hrounds : cs.length < rounds) :
    (stringWithin rounds).run (cs.flatMap stringChar ++ '"' :: rest) = .ok (cs, rest) := by
  induction cs generalizing rounds with
  | nil =>
      obtain ⟨n, rfl⟩ := Nat.exists_eq_add_one_of_ne_zero (Nat.ne_of_gt hrounds)
      rfl
  | cons c more ih =>
      obtain ⟨n, rfl⟩ := Nat.exists_eq_add_one_of_ne_zero (Nat.ne_zero_of_lt hrounds)
      rw [List.flatMap_cons, List.append_assoc]
      exact run_stringWithin_cons (ih (Nat.lt_of_succ_lt_succ hrounds))

theorem length_le_length_flatMap_stringChar (cs : List Char) :
    cs.length ≤ (cs.flatMap stringChar).length := by
  induction cs with
  | nil => exact Nat.le_refl 0
  | cons c more ih =>
      have hpos : 0 < (stringChar c).length := by
        by_cases hescape : c.toNat < 0x20 ∨ c = '"' ∨ c = '\\'
        · obtain ⟨tail, htail, -⟩ := exists_escape hescape
          rw [htail]
          exact Nat.succ_pos _
        · rw [stringChar_of_plain hescape]
          exact Nat.one_pos
      rw [List.flatMap_cons, List.length_append, List.length_cons]
      omega

theorem run_string (s : String) (rest : List Char) :
    Reader.string.run (stringChars s ++ rest) = .ok (s, rest) := by
  have htext : stringChars s ++ rest =
      '"' :: (s.toList.flatMap stringChar ++ '"' :: rest) := by
    simp [stringChars]
  have hrounds : s.toList.length <
      (s.toList.flatMap stringChar ++ '"' :: rest).length + 1 := by
    have hbound := length_le_length_flatMap_stringChar s.toList
    rw [List.length_append]
    omega
  rw [htext, Reader.string, run_bind_of_ok (run_skip _), List.tail_cons,
    run_bind_of_ok (run_rest _), run_bind_of_ok (run_stringWithin hrounds), String.ofList_toList]
  rfl

/-! ## Integers -/

/-- The text is not the rest of a number. -/
def EndsNumber (cs : List Char) : Prop :=
  ∀ c, cs.head? = some c → c.isDigit = false ∧ c ≠ '.' ∧ c ≠ 'e' ∧ c ≠ 'E'

theorem run_digits (hdigits : ∀ c ∈ cs, c.isDigit = true) (hrest : EndsNumber rest) :
    digits.run (cs ++ rest) = .ok (cs, rest) := by
  have htake : (cs ++ rest).takeWhile Char.isDigit = cs := by
    rw [List.takeWhile_append_of_pos hdigits]
    cases rest with
    | nil => simp
    | cons c more => simp [(hrest c rfl).1]
  have hdrop : (cs ++ rest).dropWhile Char.isDigit = rest := by
    rw [List.dropWhile_append_of_pos hdigits]
    cases rest with
    | nil => rfl
    | cons c more => simp [(hrest c rfl).1]
  rw [digits, run_bind_of_ok (run_rest _), htake, hdrop]
  rfl

theorem ofDigits_toDigits (n : Nat) : ofDigits (Nat.toDigits 10 n) = n := by
  have hsteps : ofDigits (Nat.toDigits 10 n) = Nat.ofDigitChars 10 (Nat.toDigits 10 n) 0 := by
    unfold ofDigits Nat.ofDigitChars Decimal.digitValue
    simp only [Nat.mul_comm]
  rw [hsteps, Nat.ofDigitChars_ten_toDigits]

/-- The first digit is zero for zero only. -/
theorem head?_toDigits_ne_zero {n : Nat} (h : n ≠ 0) :
    (Nat.toDigits 10 n).head? ≠ some '0' := by
  induction n using Nat.strongRecOn with
  | ind n ih =>
      rw [Nat.toDigits_eq_if (by decide)]
      by_cases hsmall : n < 10
      · rw [if_pos hsmall]
        have hdigits : ∀ n < 10, n ≠ 0 → [Nat.digitChar n].head? ≠ some '0' := by decide
        exact hdigits n hsmall h
      · rw [if_neg hsmall]
        have hfirst := ih (n / 10) (by omega) (by omega)
        obtain ⟨c, more, hdigits⟩ := List.exists_cons_of_ne_nil
          (Nat.toDigits_ne_nil : Nat.toDigits 10 (n / 10) ≠ [])
        rw [hdigits] at hfirst ⊢
        exact hfirst

theorem run_isAtDigit (hrest : EndsNumber rest) : isAtDigit.run rest = .ok (false, rest) := by
  rw [isAtDigit, run_bind_of_ok (run_peek _)]
  cases rest with
  | nil => rfl
  | cons c more =>
      change (pure c.isDigit : Reader Bool).run (c :: more) = _
      rw [(hrest c rfl).1]
      rfl

theorem run_someDigits (hne : cs ≠ []) (hdigits : ∀ c ∈ cs, c.isDigit = true)
    (hrest : EndsNumber rest) : someDigits.run (cs ++ rest) = .ok (cs, rest) := by
  obtain ⟨c, more, rfl⟩ := List.exists_cons_of_ne_nil hne
  have hstart : c.isDigit = true := hdigits c List.mem_cons_self
  rw [someDigits, run_bind_of_ok (run_peek _)]
  change (if c.isDigit then digits else failPast .invalidNumber).run (c :: more ++ rest) = _
  rw [if_pos hstart]
  exact run_digits hdigits hrest

theorem run_integerDigits (n : Nat) (hrest : EndsNumber rest) :
    integerDigits.run (Nat.toDigits 10 n ++ rest) = .ok (Nat.toDigits 10 n, rest) := by
  have hdigits : ∀ c ∈ Nat.toDigits 10 n, c.isDigit = true :=
    fun c => Nat.isDigit_of_mem_toDigits (by decide) (by decide)
  rw [integerDigits, run_bind_of_ok (run_peek _)]
  by_cases hzero : n = 0
  · subst hzero
    have hhead : (['0'] ++ rest).head? = some '0' := rfl
    rw [Nat.toDigits_zero, if_pos hhead, run_bind_of_ok (run_skip _)]
    change (isAtDigit >>= _).run rest = _
    rw [run_bind_of_ok (run_isAtDigit hrest)]
    rfl
  · have hhead : (Nat.toDigits 10 n ++ rest).head? ≠ some '0' := by
      have hfirst := head?_toDigits_ne_zero hzero
      obtain ⟨c, more, hcs⟩ := List.exists_cons_of_ne_nil
        (Nat.toDigits_ne_nil : Nat.toDigits 10 n ≠ [])
      rw [hcs] at hfirst ⊢
      exact hfirst
    rw [if_neg hhead]
    exact run_someDigits Nat.toDigits_ne_nil hdigits hrest

/-! ## Numbers -/

theorem run_fractionDigits? (hrest : EndsNumber rest) :
    fractionDigits?.run rest = .ok (none, rest) := by
  have hpoint : rest.head? ≠ some '.' := fun h => (hrest _ h).2.1 rfl
  rw [fractionDigits?, run_bind_of_ok (run_peek _), if_pos hpoint]
  rfl

theorem run_exponent? (isZero : Bool) (hrest : EndsNumber rest) :
    (exponent? isZero).run rest = .ok (none, rest) := by
  have hsmall : rest.head? ≠ some 'e' := fun h => (hrest _ h).2.2.1 rfl
  have hcapital : rest.head? ≠ some 'E' := fun h => (hrest _ h).2.2.2 rfl
  have hnone : (decide (rest.head? ≠ some 'e') && decide (rest.head? ≠ some 'E')) = true := by
    rw [decide_eq_true hsmall, decide_eq_true hcapital]
    rfl
  rw [exponent?, run_bind_of_ok (run_peek _), run_bind_of_ok (run_peek _), if_pos hnone]
  rfl

/-- The digits of an integer of 64 bits, after its sign, make that integer. -/
theorem run_number {n : Int} (hword : isWord64 n = true) (hrest : EndsNumber rest) :
    number.run (integerChars n ++ rest) = .ok (.integer n, rest) := by
  have hmagnitude := ofDigits_toDigits n.natAbs
  unfold integerChars
  rw [number, run_bind_of_ok (run_peek _)]
  by_cases hneg : n < 0
  · have hsign : (('-' :: Nat.toDigits 10 n.natAbs) ++ rest).head? = some '-' := rfl
    have hn : -(n.natAbs : Int) = n := by omega
    have hpos : n.natAbs ≠ 0 := by omega
    rw [if_pos hneg]
    simp only [hsign, if_true]
    rw [run_bind_of_ok (run_skip _), List.cons_append, List.tail_cons,
      run_bind_of_ok (run_integerDigits _ hrest), run_bind_of_ok (run_fractionDigits? hrest),
      run_bind_of_ok (run_exponent? _ hrest), hmagnitude, hn, hword, decide_eq_false hpos]
    rfl
  · have hsign : (Nat.toDigits 10 n.natAbs ++ rest).head? ≠ some '-' := by
      obtain ⟨c, more, hdigits⟩ := List.exists_cons_of_ne_nil
        (Nat.toDigits_ne_nil : Nat.toDigits 10 n.natAbs ≠ [])
      have hc : c.isDigit = true :=
        Nat.isDigit_of_mem_toDigits (by decide) (by decide) (hdigits ▸ List.mem_cons_self)
      rw [hdigits]
      rintro ⟨rfl⟩
      exact absurd hc (by decide)
    have hn : (n.natAbs : Int) = n := by omega
    rw [if_neg hneg]
    simp only [hsign, if_false]
    rw [run_bind_of_ok (run_integerDigits _ hrest), run_bind_of_ok (run_fractionDigits? hrest),
      run_bind_of_ok (run_exponent? _ hrest), hmagnitude, hn, hword]
    rfl

/-! ## Scalars -/

theorem run_scalar_of_digit (hc : c = '-' ∨ c.isDigit = true) :
    scalar.run (c :: cs) = number.run (c :: cs) := by
  have hstart : (decide (c = '-') || c.isDigit) = true := by simpa using hc
  rw [scalar, run_bind_of_ok (run_peek _), List.head?_cons]
  split
  · next heq =>
      cases heq
      exact absurd hc (by decide)
  · next heq =>
      cases heq
      exact absurd hc (by decide)
  · next heq =>
      cases heq
      exact absurd hc (by decide)
  · next heq =>
      cases heq
      exact absurd hc (by decide)
  · next heq =>
      cases heq
      rw [if_pos hstart]
  · next heq => cases heq

theorem run_scalar_string (s : String) (rest : List Char) :
    scalar.run (stringChars s ++ rest) = .ok (.string s, rest) := by
  have hhead : (stringChars s ++ rest).head? = some '"' := rfl
  rw [scalar, run_bind_of_ok (run_peek _), hhead]
  change (Reader.string >>= fun s => pure (Json.string s)).run (stringChars s ++ rest) = _
  rw [run_bind_of_ok (run_string s rest)]
  rfl

/-- A value that is no container and whose number, if it is one, is an integer of 64
bits. -/
def IsPlain : Json → Prop
  | .null | .bool _ | .string _ => True
  | .integer n => isWord64 n = true
  | .float _ | .array _ | .object _ => False

theorem integerChars_eq_cons (n : Int) :
    ∃ c cs, integerChars n = c :: cs ∧ (c = '-' ∨ c.isDigit = true) := by
  unfold integerChars
  split
  · exact ⟨_, _, rfl, Or.inl rfl⟩
  · obtain ⟨c, more, hdigits⟩ := List.exists_cons_of_ne_nil
      (Nat.toDigits_ne_nil : Nat.toDigits 10 n.natAbs ≠ [])
    refine ⟨c, more, hdigits, Or.inr ?_⟩
    exact Nat.isDigit_of_mem_toDigits (by decide) (by decide) (hdigits ▸ List.mem_cons_self)

/-- What is printed of a plain value is read as that value. -/
theorem run_scalar {v : Json} (hv : IsPlain v) (hrest : EndsNumber rest) (layout : Layout)
    (level : Nat) : scalar.run (v.chars layout level ++ rest) = .ok (v, rest) := by
  cases v with
  | null => rfl
  | bool b => cases b <;> rfl
  | string s => exact run_scalar_string s rest
  | integer n =>
      obtain ⟨c, cs, hchars, hc⟩ := integerChars_eq_cons n
      have hnumber := run_number hv hrest
      change scalar.run (integerChars n ++ rest) = _
      rw [hchars] at hnumber ⊢
      rw [List.cons_append, run_scalar_of_digit hc]
      exact hnumber
  | float x => exact absurd hv id
  | array items => exact absurd hv id
  | object members => exact absurd hv id

end GraphqlFragments.Json.Reader
