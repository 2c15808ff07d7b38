import ConfigSweep.Number.Binary64

/-!
# Shortest decimals

The fewest digits that read back to a given binary64 number: on the decimal grids of one digit,
two digits and so on, the two neighbours of the number are tried, and the first grid with a
neighbour inside the rounding interval wins. Of two such neighbours the nearer is taken, of two
equally near the one with the even last digit.
-/

namespace ConfigSweep

/-- The number `digits * 10 ^ exponent`. -/
structure Decimal where
  digits : Nat
  exponent : Int
  deriving DecidableEq, Repr

namespace Decimal

/-- Orders the decimal against `n / parts` units of the least positive number, exactly. -/
def compareWith (d : Decimal) (n parts : Nat) : Ordering :=
  compare (d.digits * Nat.pow 10 d.exponent.toNat * Binary64.unitsPerOne * parts)
    (n * Nat.pow 10 (-d.exponent).toNat)

/-- The decimal lies among the reals that round to `x`; the ends belong to it iff the significand
of `x` is even. -/
def readsBack (d : Decimal) (x : Binary64) : Bool :=
  let gap := Nat.pow 2 x.scale
  let low := 4 * x.units - (if x.narrowBelow then gap else 2 * gap)
  let high := 4 * x.units + 2 * gap
  let closed := x.significand % 2 == 0
  match d.compareWith low 4, d.compareWith high 4 with
  | .gt, .lt => true
  | .eq, .lt => closed
  | .gt, .eq => closed
  | _, _ => false

/-- Takes trailing zeros of the digits into the exponent. -/
def trim : Nat → Decimal → Decimal
  | 0, d => d
  | fuel + 1, d =>
    if d.digits % 10 = 0 ∧ d.digits ≠ 0 then trim fuel ⟨d.digits / 10, d.exponent + 1⟩ else d

end Decimal

namespace Binary64

/-- An exponent `k` with `10 ^ (k - 1) ≤ |x| < 10 ^ k`, for `x` other than zero. -/
def decimalScale (x : Binary64) : Int :=
  let estimate := ((x.units.log2 : Int) - 1074) * 30103 / 100000
  let candidates := [estimate, estimate + 1, estimate + 2]
  (candidates.find? fun k => (Decimal.mk 1 k).compareWith x.units 1 == .gt).getD (estimate + 3)

/-- The neighbour of `x` on the grid of multiples of `10 ^ exponent` that reads back, if one
does. -/
def onGrid? (x : Binary64) (exponent : Int) : Option Decimal :=
  let below := x.units * Nat.pow 10 (-exponent).toNat / (unitsPerOne * Nat.pow 10 exponent.toNat)
  let down : Decimal := ⟨below, exponent⟩
  let up : Decimal := ⟨below + 1, exponent⟩
  match down.readsBack x, up.readsBack x with
  | false, false => none
  | true, false => some down
  | false, true => some up
  | true, true =>
    match (Decimal.mk (2 * below + 1) exponent).compareWith (2 * x.units) 1 with
    | .gt => some down
    | .lt => some up
    | .eq => some (if below % 2 = 0 then down else up)

/-- The shortest decimal that reads back to `|x|`. Seventeen digits suffice; the last alternative
is the exact value. -/
def shortest (x : Binary64) : Decimal :=
  if x.isZero then ⟨0, 0⟩
  else
    let k := x.decimalScale
    let found := (List.range 17).findSome? fun (n : Nat) => x.onGrid? (k - (n + 1))
    ((found.getD ⟨x.units * Nat.pow 5 1074, -1074⟩).trim 1100)

end Binary64

end ConfigSweep
