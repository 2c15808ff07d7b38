import ConfigSweep.Number.Shortest

/-!
# Number texts

Numbers in trees are written with the fewest digits that read back, positionally while the leading
digit stands between the fifth place after the point and the sixteenth before it, otherwise with
one digit before the point and a signed exponent.
-/

namespace ConfigSweep

/-- How a decimal is laid out: exponents of the leading digit from `plainFrom` to `plainTo` are
written positionally. -/
structure NumberLayout where
  plainFrom : Int
  plainTo : Int
  deriving DecidableEq, Repr

namespace NumberLayout

/-- The layout of numbers in trees. -/
def tree : NumberLayout := ⟨-5, 15⟩

def zeros (n : Nat) : List Char :=
  List.replicate n '0'

/-- A positional decimal always has a digit on both sides of the point. -/
def positional (digits : List Char) (exponent : Int) : List Char :=
  let whole := (digits.length : Int) + exponent
  if 0 ≤ exponent then digits ++ zeros exponent.toNat ++ ['.', '0']
  else if 0 < whole then
    digits.take whole.toNat ++ '.' :: digits.drop whole.toNat
  else '0' :: '.' :: (zeros (-whole).toNat ++ digits)

/-- One digit before the point; the point is left out when no digit follows it. -/
def scientific (digits : List Char) (leading : Int) : List Char :=
  let fraction := digits.drop 1
  let sign := if leading < 0 then '-' else '+'
  digits.take 1 ++ (if fraction.isEmpty then [] else '.' :: fraction)
    ++ 'e' :: sign :: (Nat.toDigits 10 leading.natAbs)

def layOut (layout : NumberLayout) (d : Decimal) : List Char :=
  let digits := Nat.toDigits 10 d.digits
  let leading := (digits.length : Int) + d.exponent - 1
  if layout.plainFrom ≤ leading ∧ leading ≤ layout.plainTo then positional digits d.exponent
  else scientific digits leading

end NumberLayout

/-- The text of a binary64 number in a tree. -/
def Binary64.text (x : Binary64) : String :=
  let body := NumberLayout.tree.layOut x.shortest
  String.ofList (if x.negative then '-' :: body else body)

end ConfigSweep
