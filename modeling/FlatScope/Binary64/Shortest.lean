import FlatScope.Binary64.Basic

/-!
# The shortest decimal of a double

`Binary64.shortest` finds the decimal with the fewest digits that lies in the interval of reals
rounding to the double, and of those the nearest; between two equally near ones the larger.
`Binary64.text` writes it without an exponent and without a needless point.
-/

namespace FlatScope.Binary64

/-- `digits * 10 ^ exponent`. -/
structure Decimal where
  digits : Nat
  exponent : Int
deriving DecidableEq, Repr

/--
A positive real `value / unit` and the interval `low / unit` to `high / unit` around it whose
members round to the same double; the ends belong to it when `closed`.
-/
structure Interval where
  unit : Nat
  low : Nat
  value : Nat
  high : Nat
  closed : Bool
deriving DecidableEq, Repr

/--
The interval of `m * 2 ^ p / 2 ^ 1074`: half a step to each side, but a quarter below a power of
two, where the steps get smaller.
-/
def roundingInterval (m p : Nat) : Interval where
  unit := Nat.pow 2 1076
  low := (4 * m - if m = Nat.pow 2 52 then 1 else 2) * Nat.pow 2 p
  value := 4 * m * Nat.pow 2 p
  high := (4 * m + 2) * Nat.pow 2 p
  closed := m % 2 = 0

def digitCount (n : Nat) : Nat := (Nat.toDigits 10 n).length

namespace Interval

/-- The least `k` with the value below `10 ^ k`. -/
def scale (i : Interval) : Int :=
  if i.unit ≤ i.value then digitCount (i.value / i.unit)
  else 1 - digitCount (i.unit / i.value)

/-- Does `n * num / den` lie in the interval? -/
def contains (i : Interval) (n num den : Nat) : Bool :=
  let point := n * num * i.unit
  if i.closed then i.low * den ≤ point && point ≤ i.high * den
  else i.low * den < point && point < i.high * den

/-- The nearest multiple of `10 ^ exponent` in the interval, of the two next to the value. -/
def onGrid (i : Interval) (exponent : Int) : Option Decimal :=
  let num := Nat.pow 10 exponent.toNat
  let den := Nat.pow 10 (-exponent).toNat
  let below := i.value * den / (i.unit * num)
  let above := below + 1
  let aboveNearer := (below + above) * num * i.unit ≤ 2 * i.value * den
  match i.contains below num den, i.contains above num den with
  | true, true => some ⟨if aboveNearer then above else below, exponent⟩
  | true, false => some ⟨below, exponent⟩
  | false, true => some ⟨above, exponent⟩
  | false, false => none

/-- The value itself, all its digits written out. -/
def exact (i : Interval) : Decimal := ⟨i.value * Nat.pow 5 1076, -1076⟩

end Interval

/-- Seventeen digits always suffice; the exact value stands behind them. -/
def shortest (m p : Nat) : Decimal :=
  let i := roundingInterval m p
  ((List.range 17).findSome? fun n : Nat => i.onGrid (i.scale - (n + 1))).getD i.exact

/-- A decimal in positional notation, the fraction without trailing zeros. -/
def Decimal.text (d : Decimal) : String :=
  let digits := Nat.toDigits 10 d.digits
  if 0 ≤ d.exponent then String.ofList (digits ++ List.replicate d.exponent.toNat '0')
  else
    let places := (-d.exponent).toNat
    let padded := List.replicate (places + 1 - digits.length) '0' ++ digits
    let whole := padded.take (padded.length - places)
    let fraction := padded.drop (padded.length - places)
    let trimmed := (fraction.reverse.dropWhile (· == '0')).reverse
    String.ofList (if trimmed.isEmpty then whole else whole ++ '.' :: trimmed)

/-- A double in positional notation with the fewest digits that read back to it. -/
def text (x : Binary64) : String :=
  let sign := if x.isNegative then "-" else ""
  match x.magnitude with
  | .nan => "NaN"
  | .infinite => sign ++ "inf"
  | .finite 0 _ => sign ++ "0"
  | .finite (m + 1) p => sign ++ (shortest (m + 1) p).text

end FlatScope.Binary64
