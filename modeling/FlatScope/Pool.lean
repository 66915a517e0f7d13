import FlatScope.Arena
import Std.Data.TreeMap

/-!
# Scope pools

A `Pool` numbers the local variables of one call frame, or of the top level. A name gets the next
free slot when it is first reserved and keeps it; slots are never given up, however deep the block
was that declared the name. Slots have 16 bits: the next one is counted beside the names, and a name
is refused once the count cannot go on.
-/

namespace FlatScope

inductive PoolKind where
  /-- everything outside a function -/
  | global
  | function
deriving DecidableEq, Repr

def PoolKind.name : PoolKind → String
  | global => "Global"
  | function => "Function"

structure Pool where
  id : PoolId
  kind : PoolKind
  slots : Std.TreeMap String UInt16 := {}
  nextSlot : UInt16 := 0

namespace Pool

/-- One more, unless that takes more than 16 bits. -/
def checkedSucc (slot : UInt16) : Option UInt16 :=
  if slot.toNat + 1 < UInt16.size then some (slot + 1) else none

/-- The number of slots the frame needs. -/
def size (p : Pool) : Nat := p.nextSlot.toNat

def lookup (p : Pool) (name : String) : Option Nat := p.slots[name]?.map (·.toNat)

/-- The slot of `name`, the next free one if it has none yet; `none` if the frame is full. -/
def reserve (p : Pool) (name : String) : Option Nat × Pool :=
  match p.slots[name]? with
  | some slot => (some slot.toNat, p)
  | none =>
    let slot := p.nextSlot
    match checkedSucc slot with
    | none => (none, p)
    | some nextSlot =>
      (some slot.toNat, { p with nextSlot, slots := p.slots.insert name slot })

end Pool

abbrev Pools := Arena .pool Pool

namespace Pools

def create (pools : Pools) (kind : PoolKind) : PoolId × Pools :=
  pools.insert fun id => { id, kind }

/-- Reserves a name in one of the pools; `none` if there is no such pool or it is full. -/
def reserve (pools : Pools) (id : PoolId) (name : String) : Option Nat × Pools :=
  match pools.get? id with
  | none => (none, pools)
  | some pool =>
    let (slot, pool) := pool.reserve name
    (slot, pools.modify id fun _ => pool)

end Pools

end FlatScope
