import ConfigSweep.Json.Token

/-!
# Bare TOML values

Booleans, integers in four bases, decimal fractions, and dates and times. A date or time becomes a
mapping from a private key to its text in a normal form; not-a-number and the infinities have no
counterpart in trees and become null.
-/

namespace ConfigSweep.Toml

/-- Digits in which single underscores separate groups. -/
def ungrouped? (isDigit : Char → Bool) : List Char → Option (List Char)
  | [] => none
  | [c] => if isDigit c then some [c] else none
  | c :: '_' :: rest => if isDigit c then (c :: ·) <$> ungrouped? isDigit rest else none
  | c :: rest => if isDigit c then (c :: ·) <$> ungrouped? isDigit rest else none

/-- The value of digits in a base. -/
def valueIn (base : Nat) (digits : List Char) : Nat :=
  digits.foldl (fun n c => n * base + (Json.OpenText.hexValue? c).getD 0) 0

/-- The character is a digit of the base. -/
def isDigitIn (base : Nat) (c : Char) : Bool :=
  (Json.OpenText.hexValue? c).any (· < base)

/-- Integers are words of 64 bits, signed or unsigned. -/
def integer? (n : Int) : Option Tree :=
  if -Word.signedBound ≤ n ∧ n < Word.bound then some (.int n) else none

def integerIn? (base : Nat) (chars : List Char) : Option Tree :=
  (ungrouped? (isDigitIn base) chars).bind fun digits => integer? (valueIn base digits)

/-- Takes a sign off a number: whether it is negative, and the rest. -/
def unsigned : List Char → Bool × List Char
  | '-' :: rest => (true, rest)
  | '+' :: rest => (false, rest)
  | chars => (false, chars)

/-- The digits of a whole part, which starts with zero only if it is zero. -/
def whole? (chars : List Char) : Option (List Char) :=
  (ungrouped? Char.isDigit chars).bind fun digits =>
    if digits.head? == some '0' && digits.length != 1 then none else some digits

def decimalInteger? (negative : Bool) (chars : List Char) : Option Tree :=
  (whole? chars).bind fun digits =>
    let n : Int := valueIn 10 digits
    integer? (if negative then -n else n)

/-- The number `digits * 10 ^ exponent`, none beyond the finite range. Exponents far outside the
range are decided without computing the power. -/
def scaled? (negative : Bool) (digits : List Char) (exponent : Int) : Option Binary64 :=
  let digits := digits.dropWhile (· == '0')
  let magnitude := (digits.length : Int) + exponent
  if digits.isEmpty || magnitude < -330 then some (.zero negative)
  else if 310 < magnitude then none
  else Binary64.nearest? negative (valueIn 10 digits * Nat.pow 10 exponent.toNat)
    (Nat.pow 10 (-exponent).toNat)

/-- The parts of a text before and behind the first character that satisfies `p`. -/
def splitAtFirst (p : Char → Bool) (chars : List Char) : List Char × Option (List Char) :=
  match chars.dropWhile fun c => !p c with
  | [] => (chars, none)
  | _ :: rest => (chars.takeWhile fun c => !p c, some rest)

def exponent? (chars : List Char) : Option Int :=
  let (negative, digits) := unsigned chars
  (ungrouped? Char.isDigit digits).map fun digits =>
    let n : Int := valueIn 10 digits
    if negative then -n else n

def decimalFraction? (negative : Bool) (chars : List Char) : Option Tree := do
  let (mantissa, exponent) := splitAtFirst (fun c => c == 'e' || c == 'E') chars
  let (whole, fraction) := splitAtFirst (· == '.') mantissa
  let whole ← whole? whole
  let fraction ← fraction.elim (some []) (ungrouped? Char.isDigit)
  let exponent ← exponent.elim (some 0) exponent?
  let x ← scaled? negative (whole ++ fraction) (exponent - fraction.length)
  return .float x

def number? (chars : List Char) : Option Tree :=
  match chars with
  | '0' :: 'x' :: digits => integerIn? 16 digits
  | '0' :: 'o' :: digits => integerIn? 8 digits
  | '0' :: 'b' :: digits => integerIn? 2 digits
  | chars =>
    let (negative, body) := unsigned chars
    if body = ['i', 'n', 'f'] ∨ body = ['n', 'a', 'n'] then some .null
    else if body.any fun c => c == '.' || c == 'e' || c == 'E' then decimalFraction? negative body
    else decimalInteger? negative body

/-- Takes so many digits, whose value is at most `greatest`. -/
def field? (length greatest : Nat) (chars : List Char) : Option (Nat × List Char) :=
  let digits := chars.take length
  let value := valueIn 10 digits
  if digits.length = length && digits.all Char.isDigit && value ≤ greatest then
    some (value, chars.drop length)
  else none

def isLeapYear (year : Nat) : Bool :=
  year % 4 == 0 && (year % 100 != 0 || year % 400 == 0)

def daysIn (year month : Nat) : Nat :=
  if month = 2 then (if isLeapYear year then 29 else 28)
  else if month = 4 ∨ month = 6 ∨ month = 9 ∨ month = 11 then 30
  else 31

/-- Takes a character that must come next. -/
def expect? (c : Char) : List Char → Option (List Char)
  | d :: rest => if d = c then some rest else none
  | [] => none

/-- Takes a date that exists in the calendar. -/
def date? (chars : List Char) : Option (List Char × List Char) := do
  let (year, rest) ← field? 4 9999 chars
  let (month, rest) ← field? 2 12 (← expect? '-' rest)
  let (day, rest) ← field? 2 (daysIn year month) (← expect? '-' rest)
  if month = 0 || day = 0 then none else return (chars.take 10, rest)

/-- The fraction of a second as it is kept: nine digits at most, no zeros at the end. -/
def keptFraction (digits : List Char) : List Char :=
  match ((digits.take 9).reverse.dropWhile (· == '0')).reverse with
  | [] => []
  | kept => '.' :: kept

/-- Takes a time of day; seconds may be left out. -/
def time? (chars : List Char) : Option (List Char × List Char) := do
  let (_, rest) ← field? 2 23 chars
  let (_, rest) ← field? 2 59 (← expect? ':' rest)
  match rest with
  | ':' :: rest =>
    let (_, rest) ← field? 2 60 rest
    match rest with
    | '.' :: rest =>
      let fraction := rest.takeWhile Char.isDigit
      if fraction.isEmpty then none
      else return (chars.take 8 ++ keptFraction fraction, rest.dropWhile Char.isDigit)
    | rest => return (chars.take 8, rest)
  | rest => return (chars.take 5 ++ [':', '0', '0'], rest)

/-- The offset from universal time that ends a text; none of minus zero is kept. -/
def offset? : List Char → Option (List Char)
  | [] => some []
  | ['Z'] => some ['Z']
  | ['z'] => some ['Z']
  | sign :: chars => do
    let (hours, rest) ← field? 2 23 chars
    let (minutes, rest) ← field? 2 59 (← expect? ':' rest)
    let sign := if hours = 0 && minutes = 0 && sign = '-' then '+' else sign
    if rest.isEmpty && (sign == '+' || sign == '-') then return sign :: chars else none

/-- What stands between a date and a time. -/
def isDateTimeMark (c : Char) : Bool :=
  c == 'T' || c == 't' || c == ' '

/-- The normal form of a date, a time, or both. -/
def moment? (chars : List Char) : Option (List Char) :=
  match date? chars with
  | some (date, []) => some date
  | some (date, mark :: rest) => do
    if !isDateTimeMark mark then none
    else
      let (time, rest) ← time? rest
      return date ++ 'T' :: time ++ (← offset? rest)
  | none => do
    let (time, rest) ← time? chars
    if rest.isEmpty then return time else none

/-- The key under which the text of a date or time stands. -/
def momentKey : String := "$__toml_private_datetime"

/-- Reads a bare value. -/
def scalar? (chars : List Char) : Option Tree :=
  match String.ofList chars with
  | "true" => some (.bool true)
  | "false" => some (.bool false)
  | _ =>
    match moment? chars with
    | some text => some (.mapping [(momentKey, .str (String.ofList text))])
    | none => number? chars

end ConfigSweep.Toml
