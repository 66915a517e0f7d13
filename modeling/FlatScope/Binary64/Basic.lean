/-!
# IEEE 754 doubles by their bits

A `Binary64` is its 64 bits. `Binary64.magnitude` reads them without their sign: a finite one is
`m * 2 ^ p / 2 ^ 1074` with natural numbers `m` and `p`, so all arithmetic on it is exact.
-/

namespace FlatScope

structure Binary64 where
  bits : UInt64
deriving DecidableEq, Repr, Inhabited

namespace Binary64

/-- A double without its sign; `finite m p` stands for `m * 2 ^ p / 2 ^ 1074`. -/
inductive Magnitude where
  | nan
  | infinite
  | finite (m p : Nat)
deriving DecidableEq, Repr

def isNegative (x : Binary64) : Bool := Nat.pow 2 63 ≤ x.bits.toNat

def exponentField (x : Binary64) : Nat := x.bits.toNat / Nat.pow 2 52 % Nat.pow 2 11

def fractionField (x : Binary64) : Nat := x.bits.toNat % Nat.pow 2 52

def magnitude (x : Binary64) : Magnitude :=
  if x.exponentField = 2047 then
    if x.fractionField = 0 then .infinite else .nan
  else if x.exponentField = 0 then .finite x.fractionField 0
  else .finite (Nat.pow 2 52 + x.fractionField) (x.exponentField - 1)

/-- The bits of positive infinity; every finite magnitude has smaller ones. -/
def infinityBits : Nat := 2047 * Nat.pow 2 52

/-- The double with this sign and these 63 magnitude bits. -/
def ofSignBits (negative : Bool) (magnitude : Nat) : Binary64 :=
  ⟨UInt64.ofNat ((if negative then Nat.pow 2 63 else 0) + magnitude)⟩

def infinity (negative : Bool) : Binary64 := ofSignBits negative infinityBits

def zero (negative : Bool) : Binary64 := ofSignBits negative 0

/-- The quiet NaN with an empty payload. -/
def nan (negative : Bool) : Binary64 := ofSignBits negative (infinityBits + Nat.pow 2 51)

end Binary64

end FlatScope
