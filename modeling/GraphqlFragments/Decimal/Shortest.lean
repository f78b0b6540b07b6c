/-!
# Shortest decimals

A positive floating-point number stands for every real number that rounds to it.
Among the decimals that do, the one with the fewest digits is written, and of
those the one nearest to the number itself. All of it is exact arithmetic on
natural numbers.
-/

namespace GraphqlFragments.Decimal

/-- A positive number `significand * 2 ^ exponent` of binary floating point. A
`narrow` number is the least of its binade, so its lower neighbour is only half
as far away as its upper one. -/
structure Binary where
  significand : Nat
  exponent : Int
  narrow : Bool
  deriving DecidableEq, Repr

/-- A positive decimal: the digits stand behind a point, and the point is moved
`point` places to the right. -/
structure Numeral where
  digits : List Nat
  point : Int
  deriving DecidableEq, Repr

/-! ## Decoding -/

/-- The sign bit. -/
def isNegative (x : Float) : Bool := x.toBits ≥ 0x8000000000000000

/-- The first bit of a significand, which is not stored. -/
def hiddenBit : Nat := 0x10000000000000

/-- The magnitude of a finite number, if it is not zero. -/
def Binary.ofFloat? (x : Float) : Option Binary :=
  let bits := x.toBits.toNat % 0x8000000000000000
  let fraction := bits % hiddenBit
  let field := bits / hiddenBit
  if bits = 0 then none
  else if field = 0 then some ⟨fraction, -1074, false⟩
  else some ⟨fraction + hiddenBit, (field : Int) - 1075, fraction = 0 && field > 1⟩

/-! ## The interval

Numbers are fractions `n / scale`, where the scale makes the ends of the interval
and the grid of decimals in question whole.
-/

/-- The number and the ends of its interval, in units of `1 / scale`. -/
structure Interval where
  low : Nat
  value : Nat
  high : Nat
  closed : Bool
  scale : Nat

def Binary.interval (b : Binary) : Interval :=
  let unit := Nat.pow 2 (b.exponent - 2).toNat
  let scale := Nat.pow 2 (2 - b.exponent).toNat
  let value := 4 * b.significand
  { low := (value - if b.narrow then 1 else 2) * unit
    value := value * unit
    high := (value + 2) * unit
    closed := b.significand % 2 = 0
    scale }

def Interval.contains (i : Interval) (x : Nat) : Bool :=
  if i.closed then i.low ≤ x && x ≤ i.high else i.low < x && x < i.high

def digitCount (n : Nat) : Nat := (Nat.toDigits 10 n).length

/-- The least `p` such that the number is below `10 ^ p`. -/
def Interval.magnitude (i : Interval) : Int :=
  if i.scale ≤ i.value then digitCount (i.value / i.scale)
  else 1 - digitCount ((i.scale - 1) / i.value)

/-! ## The search -/

def distance (a b : Nat) : Nat := (a - b) + (b - a)

/-- The multiple of `10 ^ place` in the interval that is nearest to the number,
in units of that power; of two that are as near, the even one. -/
def Interval.nearest? (i : Interval) (place : Int) : Option Nat :=
  let up := Nat.pow 10 (-place).toNat
  let step := Nat.pow 10 place.toNat * i.scale
  let value := i.value * up
  let wide : Interval := { i with low := i.low * up, value, high := i.high * up }
  let below := value / step
  let above := below + 1
  match wide.contains (below * step), wide.contains (above * step) with
  | false, false => none
  | true, false => some below
  | false, true => some above
  | true, true =>
      let toBelow := distance value (below * step)
      let toAbove := distance (above * step) value
      if toBelow < toAbove then some below
      else if toAbove < toBelow then some above
      else if below % 2 = 0 then some below else some above

/-- Tries grids of more and more digits. Seventeen tell all numbers apart. -/
def Interval.search (i : Interval) (magnitude : Int) : (left digits : Nat) → Nat × Int
  | 0, digits => (0, magnitude - digits)
  | left + 1, digits =>
      let place := magnitude - digits
      match i.nearest? place with
      | some n => (n, place)
      | none => i.search magnitude left (digits + 1)

/-- The digits of a number without the zeros at its end. -/
def significantDigits (n : Nat) : List Nat :=
  let digits := (Nat.toDigits 10 n).map fun c => c.toNat - '0'.toNat
  (digits.reverse.dropWhile (· = 0)).reverse

def Binary.shortest (b : Binary) : Numeral :=
  let i := b.interval
  let (n, place) := i.search i.magnitude 17 1
  ⟨significantDigits n, digitCount n + place⟩

/-! ## Notation -/

/-- Where the point may fall for a number to be written without an exponent. -/
structure Layout where
  leastPoint : Int
  greatestPoint : Int

def digitChar (d : Nat) : Char := Char.ofNat ('0'.toNat + d)

/-- A whole number still has a place after the point. An exponent has a sign and
no leading zeros. -/
def Numeral.toChars (layout : Layout) (d : Numeral) : List Char :=
  let digits := d.digits.map digitChar
  if d.point < layout.leastPoint || layout.greatestPoint < d.point then
    let exponent := d.point - 1
    let sign := if exponent < 0 then '-' else '+'
    let point := if digits.length > 1 then ['.'] else []
    digits.take 1 ++ point ++ digits.drop 1 ++ ['e', sign] ++
      Nat.toDigits 10 exponent.natAbs
  else if d.point ≤ 0 then
    ['0', '.'] ++ List.replicate (-d.point).toNat '0' ++ digits
  else if d.point < digits.length then
    digits.take d.point.toNat ++ ['.'] ++ digits.drop d.point.toNat
  else digits ++ List.replicate (d.point.toNat - digits.length) '0' ++ ['.', '0']

/-- The text of a finite number. -/
def ofFloat (layout : Layout) (x : Float) : List Char :=
  let sign := if isNegative x then ['-'] else []
  match Binary.ofFloat? x with
  | none => sign ++ ['0', '.', '0']
  | some b => sign ++ b.shortest.toChars layout

end GraphqlFragments.Decimal
