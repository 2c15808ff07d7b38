/-!
# Finite binary64 numbers

A finite number is a sign and a position on the ladder of representable absolute values, so each
number has one form and the two zeros differ. Exact quotients of naturals are rounded to the
nearest rung, halves to the even one.
-/

namespace ConfigSweep

/-- So many neighbouring numbers share one spacing. -/
def Binary64.octave : Nat := Nat.pow 2 52

/-- A finite binary64 number. `rung` counts the representable absolute values from zero upwards:
the first two octaves share one spacing, and the spacing doubles after every further one. -/
structure Binary64 where
  negative : Bool
  rung : Fin (2047 * Binary64.octave)
  deriving DecidableEq, Repr

namespace Binary64

/-- The logarithm of the spacing at this rung, in units of the least positive number. -/
def scale (x : Binary64) : Nat :=
  x.rung.val / octave - 1

/-- The integer that counts spacings. -/
def significand (x : Binary64) : Nat :=
  if x.rung.val < octave then x.rung.val else octave + x.rung.val % octave

/-- The absolute value in units of the least positive number, `2 ^ (-1074)`. -/
def units (x : Binary64) : Nat :=
  x.significand * Nat.pow 2 x.scale

/-- Units in one. -/
def unitsPerOne : Nat := Nat.pow 2 1074

/-- The neighbour below is half as far away as the neighbour above. -/
def narrowBelow (x : Binary64) : Bool :=
  x.significand == octave && x.scale != 0

def isZero (x : Binary64) : Bool :=
  x.rung.val == 0

def zero (negative : Bool) : Binary64 :=
  ⟨negative, ⟨0, by decide⟩⟩

/-- Numbers are equal as values: the two zeros are equal, all else by form. -/
def sameValue (x y : Binary64) : Bool :=
  (x.isZero && y.isZero) || x == y

end Binary64

/-- The integer nearest to `num / den`, the even one of two equally near. -/
def nearestInteger (num den : Nat) : Nat :=
  let below := num / den
  let twiceRest := 2 * (num % den)
  if twiceRest < den then below
  else if den < twiceRest then below + 1
  else if below % 2 = 0 then below else below + 1

namespace Binary64

/-- The number nearest to `num / den`, none when it lies beyond the largest finite number. -/
def nearest? (negative : Bool) (num den : Nat) : Option Binary64 :=
  let scaled := num * unitsPerOne
  let scale := (scaled / den).log2 - 52
  let rung := scale * octave + nearestInteger scaled (den * Nat.pow 2 scale)
  if h : rung < 2047 * octave then some ⟨negative, ⟨rung, h⟩⟩ else none

/-- The product of two absolute values under a given sign. -/
def mul? (negative : Bool) (x y : Binary64) : Option Binary64 :=
  nearest? negative (x.units * y.units) (unitsPerOne * unitsPerOne)

/-- The quotient of two absolute values under a given sign. -/
def div? (negative : Bool) (x y : Binary64) : Option Binary64 :=
  nearest? negative x.units y.units

end Binary64

end ConfigSweep
