import ConfigSweep.Tree

/-!
# JSON numbers

A number without point and exponent is an integer while it fits 64 bits, unsigned or signed;
`-0` and everything else is a binary64 number. Its digits are taken into a significand of 64 bits
as long as they fit, the significand is rounded, and one further rounding scales it by a power of
ten (several below `10 ^ (-308)`). A number beyond the finite range is no number.
-/

namespace ConfigSweep.Json

/-- The value of a decimal digit. -/
def digitValue (c : Char) : Nat :=
  c.toNat - 48

/-- Takes digits into the significand while it fits; also the count of digits left over. -/
def takeDigits : List Char → Nat → Nat × Nat
  | [], significand => (significand, 0)
  | c :: rest, significand =>
    let next := significand * 10 + digitValue c
    if next < Word.bound then takeDigits rest next else (significand, rest.length + 1)

/-- The power of ten rounded to binary64; finite up to the exponent 308. -/
def tenTo (n : Nat) : Binary64 :=
  (Binary64.nearest? false (Nat.pow 10 n) 1).getD (.zero false)

/-- Divides by `10 ^ n`, by `10 ^ 308` at a time until the rest of the exponent is in reach. -/
def divideByTenTo (x : Binary64) (n : Nat) : Option Binary64 :=
  if n ≤ 308 then x.div? x.negative (tenTo n)
  else if x.isZero then some x
  else (x.div? x.negative (tenTo 308)).bind fun y => divideByTenTo y (n - 308)
termination_by n

/-- The number `significand * 10 ^ exponent` under a sign. -/
def scaled? (negative : Bool) (significand : Nat) (exponent : Int) : Option Binary64 := do
  let x ← Binary64.nearest? negative significand 1
  if exponent < 0 then divideByTenTo x exponent.natAbs
  else if exponent ≤ 308 then x.mul? negative (tenTo exponent.toNat)
  else if x.isZero then some x
  else none

/-- An unsigned or signed digit sequence after the exponent mark, up to the end of the text. -/
def exponent? : List Char → Option Int
  | '+' :: digits => natural? digits
  | '-' :: digits => (natural? digits).map (- ·)
  | digits => natural? digits
where
  natural? (digits : List Char) : Option Int :=
    if digits.isEmpty || !digits.all Char.isDigit then none
    else some (digits.foldl (fun n c => n * 10 + digitValue c) 0 : Nat)

/-- The part of a number after the digits of its fraction. -/
def closeNumber? (negative : Bool) (significand : Nat) (exponent : Int) : List Char → Option Tree
  | [] => (scaled? negative significand exponent).map .float
  | 'e' :: rest => (exponent? rest).bind fun e =>
      (scaled? negative significand (exponent + e)).map .float
  | 'E' :: rest => (exponent? rest).bind fun e =>
      (scaled? negative significand (exponent + e)).map .float
  | _ => none

/-- A whole number: an integer of 64 bits where possible. -/
def wholeNumber? (negative : Bool) (significand dropped : Nat) : Option Tree :=
  if dropped ≠ 0 then (scaled? negative significand dropped).map .float
  else if !negative then some (.int significand)
  else if significand = 0 ∨ Word.signedBound < significand then
    (Binary64.nearest? true significand 1).map .float
  else some (.int (-significand))

/-- Reads a whole text as a number. -/
def number? (text : List Char) : Option Tree :=
  let negative := text.head? == some '-'
  let unsigned := if negative then text.drop 1 else text
  let whole := unsigned.takeWhile Char.isDigit
  let rest := unsigned.dropWhile Char.isDigit
  if whole.isEmpty || (whole.head? == some '0' && whole.length ≠ 1) then none
  else
    let (significand, dropped) := takeDigits whole 0
    match rest with
    | [] => wholeNumber? negative significand dropped
    | '.' :: rest =>
      let fraction := rest.takeWhile Char.isDigit
      if fraction.isEmpty then none
      else
        let (longer, left) := takeDigits fraction significand
        closeNumber? negative longer ((dropped : Int) - (fraction.length - left))
          (rest.dropWhile Char.isDigit)
    | rest => closeNumber? negative significand dropped rest

end ConfigSweep.Json
