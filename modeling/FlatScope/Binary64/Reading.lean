import FlatScope.Binary64.Basic

/-!
# Reading decimals as doubles

`Binary64.ofDecimal` rounds `digits * 10 ^ exponent` to the nearest double, a tie to the even one.
`Binary64.ofNumeral` reads the digits, the fraction and the exponent of a numeral, and
`Binary64.ofText?` accepts a whole text: a sign, a numeral or the names of infinity and NaN.
-/

namespace FlatScope.Binary64

/-- `num / den` to the nearest natural number, a tie to the even one. -/
def roundHalfEven (num den : Nat) : Nat :=
  let floor := num / den
  let twice := 2 * (num % den)
  if twice < den then floor
  else if den < twice then floor + 1
  else if floor % 2 = 0 then floor
  else floor + 1

/-- The magnitude bits of the double nearest to `num / den`. -/
def bitsOfRatio (num den : Nat) : Nat :=
  let scaled := num * Nat.pow 2 1074
  let p := (scaled / den).log2 - 52
  min (p * Nat.pow 2 52 + roundHalfEven scaled (den * Nat.pow 2 p)) infinityBits

/--
`digits * 10 ^ exponent`. Exponents beyond the range of a double are settled before the power is
computed.
-/
def ofDecimal (negative : Bool) (digits : Nat) (exponent : Int) : Binary64 :=
  let size : Int := (Nat.toDigits 10 digits).length + exponent
  if digits = 0 then zero negative
  else if 310 < size then infinity negative
  else if size < -330 then zero negative
  else if 0 ≤ exponent then ofSignBits negative (bitsOfRatio (digits * Nat.pow 10 exponent.toNat) 1)
  else ofSignBits negative (bitsOfRatio digits (Nat.pow 10 (-exponent).toNat))

/-- The number that a list of decimal digits writes. -/
def digitsValue (cs : List Char) : Nat :=
  cs.foldl (fun n c => 10 * n + (c.toNat - '0'.toNat)) 0

/-- The signed number at the front of `cs`. -/
def signedValue : List Char → Int
  | '-' :: cs => -(digitsValue (cs.takeWhile Char.isDigit) : Int)
  | '+' :: cs => digitsValue (cs.takeWhile Char.isDigit)
  | cs => digitsValue (cs.takeWhile Char.isDigit)

/-- The parts of a numeral: digits before the point, digits after it, and what follows them. -/
def splitNumeral (cs : List Char) : List Char × List Char × List Char :=
  let whole := cs.takeWhile Char.isDigit
  match cs.dropWhile Char.isDigit with
  | '.' :: rest => (whole, rest.takeWhile Char.isDigit, rest.dropWhile Char.isDigit)
  | rest => (whole, [], rest)

/-- The value of a numeral such as `12.5e-3`. -/
def ofNumeral (negative : Bool) (cs : List Char) : Binary64 :=
  let (whole, fraction, rest) := splitNumeral cs
  let exponent := match rest with
    | 'e' :: power => signedValue power
    | 'E' :: power => signedValue power
    | _ => 0
  ofDecimal negative (digitsValue (whole ++ fraction)) (exponent - fraction.length)

/-- What may follow the digits of a numeral: nothing, or an exponent with at least one digit. -/
def isExponent (cs : List Char) : Bool :=
  let isDigits (ds : List Char) := !ds.isEmpty && ds.all Char.isDigit
  match cs with
  | [] => true
  | e :: power => (e == 'e' || e == 'E') && match power with
    | '+' :: ds => isDigits ds
    | '-' :: ds => isDigits ds
    | ds => isDigits ds

def isNumeral (cs : List Char) : Bool :=
  let (whole, fraction, rest) := splitNumeral cs
  !(whole.isEmpty && fraction.isEmpty) && isExponent rest

def ofUnsigned? (negative : Bool) (cs : List Char) : Option Binary64 :=
  match String.ofList (cs.map Char.toLower) with
  | "inf" => some (infinity negative)
  | "infinity" => some (infinity negative)
  | "nan" => some (nan negative)
  | _ => if isNumeral cs then some (ofNumeral negative cs) else none

def ofText? (text : String) : Option Binary64 :=
  match text.toList with
  | '-' :: cs => ofUnsigned? true cs
  | '+' :: cs => ofUnsigned? false cs
  | cs => ofUnsigned? false cs

end FlatScope.Binary64
