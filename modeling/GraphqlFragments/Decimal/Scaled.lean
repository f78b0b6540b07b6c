import GraphqlFragments.Decimal.Shortest
/-!
# Scaled decimals

A decimal is read as the number made of its leading digits, scaled by a power of
ten. The number, the power and the outcome are each rounded, so that the outcome
can differ from the nearest floating-point number in its last place.
-/

namespace GraphqlFragments.Decimal

/-! ## Leading digits -/

def digitValue (c : Char) : Nat := c.toNat - '0'.toNat

/-- Numbers from here on have more than 64 bits. -/
def wordSize : Nat := 0x10000000000000000

/-- Adds digits to the end of a number as long as it fits a word. Gives the number
and how many digits are left over. -/
def addDigits (n : Nat) : List Char → Nat × Nat
  | [] => (n, 0)
  | c :: rest =>
      let longer := n * 10 + digitValue c
      if longer < wordSize then addDigits longer rest else (n, rest.length + 1)

/-- The leading digits of a decimal with the power of ten that goes with them. The
digits before the point and those after it are cut off one by one, so a place
before the point can be lost and one after it be kept. -/
def significand (whole places : List Char) : Nat × Int :=
  let (n, skipped) := addDigits 0 whole
  let (n, left) := addDigits n places
  (n, (skipped : Int) - ((places.length : Int) - left))

/-! ## Scaling -/

/-- The exponent of the greatest power of ten that is a finite number. -/
def greatestPower : Nat := 308

def powerOfTen (exponent : Nat) : Float := Float.ofScientific 1 false exponent

/-- Infinite if the outcome is too large. -/
def scaleUp (x : Float) (exponent : Nat) : Float :=
  if exponent ≤ greatestPower then x * powerOfTen exponent
  else if x == 0.0 then x
  else 1.0 / 0.0

/-- Divides in several steps if the power is too large for one. -/
def scaleDown (x : Float) (exponent : Nat) : Float :=
  if exponent ≤ greatestPower then x / powerOfTen exponent
  else if x == 0.0 then x
  else scaleDown (x / powerOfTen greatestPower) (exponent - greatestPower)
termination_by exponent
decreasing_by
  rename_i tooLarge _
  rw [greatestPower] at tooLarge ⊢
  omega

/-- The number `n * 10 ^ exponent`, or an infinite one if that is too large. -/
def scaled (n : Nat) (exponent : Int) : Float :=
  let x := n.toUInt64.toFloat
  match exponent with
  | .ofNat up => scaleUp x up
  | .negSucc down => scaleDown x (down + 1)

end GraphqlFragments.Decimal
