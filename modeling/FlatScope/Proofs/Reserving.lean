import FlatScope.Pool

/-!
# What reserving a name does

`Pool.Reserves` says what `Pool.reserve` can do: the name is known, or the pool is full and stays as
it is, or the name gets the next slot. Counter and map of a pool stay in step (`Pool.InStep`): in
pools that are filled by reserving names (`Pools.Made`) the counter is the number of names in the
map, and their slots are the numbers below it.
-/

namespace FlatScope

/-- The most slots a frame can have. -/
def maxSlots : Nat := 65535

namespace Pool

variable {p q : Pool} {name other : String} {slot : Nat}

/-! ## The counter -/

theorem checkedSucc_eq_none {n : UInt16} : checkedSucc n = none ↔ n.toNat = maxSlots := by
  have hlt : n.toNat < 65536 := n.toNat_lt
  unfold checkedSucc
  split
  · next h =>
    have h : n.toNat + 1 < 65536 := h
    simp only [reduceCtorEq, false_iff, maxSlots]
    omega
  · next h =>
    have h : ¬ n.toNat + 1 < 65536 := h
    simp only [true_iff, maxSlots]
    omega

theorem toNat_of_checkedSucc {n m : UInt16} (h : checkedSucc n = some m) :
    n.toNat < maxSlots ∧ m.toNat = n.toNat + 1 := by
  unfold checkedSucc at h
  split at h
  · next hlt =>
    have hlt : n.toNat + 1 < 65536 := hlt
    obtain rfl := Option.some.inj h
    refine ⟨by simp only [maxSlots]; omega, ?_⟩
    rw [UInt16.toNat_add]
    exact Nat.mod_eq_of_lt hlt
  · cases h

/-! ## One reservation -/

/-- What may be answered when a name is reserved, and how the pool is then. -/
inductive Reserves (p : Pool) (name : String) : Option Nat → Pool → Prop where
  | known {slot : Nat} : p.lookup name = some slot → Reserves p name (some slot) p
  | full : p.lookup name = none → p.size = maxSlots → Reserves p name none p
  | added {q : Pool} : p.lookup name = none → p.size < maxSlots → q.id = p.id → q.kind = p.kind →
      q.size = p.size + 1 → q.slots = p.slots.insert name p.nextSlot →
      Reserves p name (some p.size) q

theorem lookup_eq_none : p.lookup name = none ↔ p.slots[name]? = none := Option.map_eq_none_iff

theorem reserves (p : Pool) (name : String) :
    p.Reserves name (p.reserve name).1 (p.reserve name).2 := by
  unfold reserve
  cases hname : p.slots[name]? with
  | some slot => exact .known (congrArg (Option.map UInt16.toNat) hname)
  | none =>
    have hlookup : p.lookup name = none := lookup_eq_none.mpr hname
    cases hsucc : checkedSucc p.nextSlot with
    | none =>
      simp only [hsucc]
      exact .full hlookup (checkedSucc_eq_none.mp hsucc)
    | some next =>
      obtain ⟨hroom, hnext⟩ := toNat_of_checkedSucc hsucc
      simp only [hsucc]
      exact .added hlookup hroom rfl rfl hnext rfl

theorem reserves_of_eq {slot? : Option Nat} (h : p.reserve name = (slot?, q)) :
    p.Reserves name slot? q := by
  have hr := p.reserves name
  rwa [h] at hr

/-- A pool that refuses a name stays as it is. -/
theorem reserve_snd_of_none (h : (p.reserve name).1 = none) : (p.reserve name).2 = p := by
  have hr := p.reserves name
  generalize (p.reserve name).2 = q at hr
  rw [h] at hr
  cases hr
  rfl

/-- With one more name every other one keeps its slot. -/
theorem lookup_of_insert {n : UInt16} (h : q.slots = p.slots.insert name n) (other : String) :
    q.lookup other = if other = name then some n.toNat else p.lookup other := by
  unfold lookup
  rw [h, Std.TreeMap.getElem?_insert]
  by_cases heq : other = name
  · rw [heq, if_pos rfl, if_pos Std.ReflCmp.compare_self]
    rfl
  · rw [if_neg heq, if_neg (by simpa using Ne.symm heq)]

theorem reserve_eq_of_lookup (h : p.lookup name = some slot) :
    p.reserve name = (some slot, p) := by
  have hr := p.reserves name
  generalize p.reserve name = r at hr
  obtain ⟨slot?, q⟩ := r
  cases hr with
  | known h' => rw [Option.some.inj (h.symm.trans h')]
  | full h' => cases h.symm.trans h'
  | added h' => cases h.symm.trans h'

/-! ## Counter and map -/

/-- The counter says how many names there are, and their slots are the numbers below it. -/
structure InStep (p : Pool) : Prop where
  counted : p.slots.size = p.size
  onto : ∀ slot, slot < p.size ↔ ∃ name, p.lookup name = some slot
  injective : ∀ name name' slot, p.lookup name = some slot → p.lookup name' = some slot →
    name = name'

theorem inStep_empty (id : PoolId) (kind : PoolKind) : InStep { id, kind } where
  counted := rfl
  onto slot := ⟨fun h => absurd h (Nat.not_lt_zero slot), fun ⟨_, h⟩ => by cases h⟩
  injective _ _ _ h := by cases h

theorem InStep.lookup_lt (h : p.InStep) (hl : p.lookup name = some slot) : slot < p.size :=
  (h.onto slot).mpr ⟨name, hl⟩

theorem InStep.reserves {slot? : Option Nat} (h : p.InStep) (hr : p.Reserves name slot? q) :
    q.InStep := by
  cases hr with
  | known => exact h
  | full => exact h
  | added hnew _ _ _ hsize hslots =>
    have hlookup := lookup_of_insert hslots
    have hold : ∀ {other : String} {slot : Nat}, q.lookup other = some slot →
        other = name ∧ slot = p.size ∨ other ≠ name ∧ p.lookup other = some slot := by
      intro other slot hslot
      rw [hlookup] at hslot
      split at hslot
      · next heq => exact .inl ⟨heq, (Option.some.inj hslot).symm⟩
      · next hne => exact .inr ⟨hne, hslot⟩
    refine ⟨?_, fun slot => ⟨fun hlt => ?_, ?_⟩, fun a b slot ha hb => ?_⟩
    · have hcontains : p.slots.contains name = false := by
        rw [Std.TreeMap.contains_eq_isSome_getElem?, lookup_eq_none.mp hnew]
        rfl
      rw [hslots, Std.TreeMap.size_insert, hsize, ← h.counted]
      simp [hcontains]
    · -- the last number is that of the new name
      by_cases heq : slot = p.size
      · exact ⟨name, by rw [hlookup, if_pos rfl, heq]; rfl⟩
      · obtain ⟨other, hother⟩ := (h.onto slot).mp (by omega)
        refine ⟨other, ?_⟩
        rw [hlookup, if_neg, hother]
        rintro rfl
        cases hnew.symm.trans hother
    · rintro ⟨other, hother⟩
      rcases hold hother with ⟨-, rfl⟩ | ⟨-, hother⟩
      · omega
      · have := h.lookup_lt hother
        omega
    · rcases hold ha with ⟨rfl, rfl⟩ | ⟨-, ha⟩ <;> rcases hold hb with ⟨rfl, hb⟩ | ⟨-, hb⟩
      · rfl
      · exact absurd (h.lookup_lt hb) (Nat.lt_irrefl _)
      · exact absurd (h.lookup_lt ha) (hb ▸ Nat.lt_irrefl _)
      · exact h.injective a b slot ha hb

/-- Counter and map stay in step, whether the name is known, new or refused. -/
theorem InStep.reserve (h : p.InStep) (name : String) : (p.reserve name).2.InStep :=
  h.reserves (p.reserves name)

/-! ## Pools that hold the same -/

/-- The pools hold the same names in the same slots, and go on with the same one. -/
structure Agrees (p q : Pool) : Prop where
  slots_eq : q.slots = p.slots
  nextSlot_eq : q.nextSlot = p.nextSlot

theorem Agrees.refl (p : Pool) : p.Agrees p := ⟨rfl, rfl⟩

theorem Agrees.size_eq (h : p.Agrees q) : q.size = p.size := congrArg UInt16.toNat h.nextSlot_eq

theorem Agrees.lookup_eq (h : p.Agrees q) (name : String) : q.lookup name = p.lookup name := by
  unfold lookup
  rw [h.slots_eq]

/-- What reserving a name does to a pool depends on the names in it and their number. -/
theorem Agrees.reserve (h : p.Agrees q) (name : String) :
    (q.reserve name).1 = (p.reserve name).1 ∧
      (p.reserve name).2.Agrees (q.reserve name).2 := by
  unfold Pool.reserve
  rw [h.slots_eq, h.nextSlot_eq]
  cases p.slots[name]? with
  | some slot => exact ⟨rfl, h⟩
  | none =>
    dsimp only
    cases checkedSucc p.nextSlot with
    | none => exact ⟨rfl, h⟩
    | some nextSlot => exact ⟨rfl, rfl, rfl⟩

end Pool

namespace Pools

variable {pools pools' : Pools} {id : PoolId} {name : String} {slot : Nat}

theorem reserve_of_get?_none (h : pools.get? id = none) :
    pools.reserve id name = (none, pools) := by
  unfold reserve
  rw [h]

theorem reserve_eq_of_get? {p : Pool} (h : pools.get? id = some p) :
    pools.reserve id name = ((p.reserve name).1, pools.modify id fun _ => (p.reserve name).2) := by
  unfold reserve
  rw [h]

/-- A name that gets no slot changes nothing. -/
theorem reserve_snd_of_none (h : (pools.reserve id name).1 = none) :
    (pools.reserve id name).2 = pools := by
  cases hp : pools.get? id with
  | none => rw [reserve_of_get?_none hp]
  | some p =>
    rw [reserve_eq_of_get? hp] at h ⊢
    exact Arena.modify_of_get? hp (Pool.reserve_snd_of_none h)

theorem eq_of_reserve_none (h : pools.reserve id name = (none, pools')) : pools' = pools := by
  have hsame := reserve_snd_of_none (congrArg Prod.fst h)
  rwa [h] at hsame

theorem reserve_eq_some (h : pools.reserve id name = (some slot, pools')) :
    ∃ p q, pools.get? id = some p ∧ p.reserve name = (some slot, q) ∧
      pools' = pools.modify id fun _ => q := by
  cases hp : pools.get? id with
  | none =>
    rw [reserve_of_get?_none hp] at h
    cases h
  | some p =>
    rw [reserve_eq_of_get? hp] at h
    obtain ⟨hslot, rfl⟩ := Prod.mk.inj h
    exact ⟨p, (p.reserve name).2, rfl, Prod.ext hslot rfl, rfl⟩

/-- Pools as they come about: opened empty, and filled by reserving names. -/
inductive Made : Pools → Prop where
  | empty : Made .empty
  | create {pools : Pools} (kind : PoolKind) : Made pools → Made (pools.create kind).2
  | reserve {pools : Pools} (id : PoolId) (name : String) : Made pools →
      Made (pools.reserve id name).2

/-- In all of them the counter and the map are in step. -/
theorem Made.inStep {p : Pool} (h : Made pools) (hp : pools.get? id = some p) : p.InStep := by
  induction h generalizing p with
  | empty =>
    rw [Arena.get?_empty] at hp
    cases hp
  | create kind _ ih =>
    unfold Pools.create at hp
    rw [Arena.get?_insert] at hp
    split at hp
    · cases hp
      exact Pool.inStep_empty id kind
    · exact ih hp
  | @reserve pools other name _ ih =>
    cases hother : pools.get? other with
    | none =>
      rw [reserve_of_get?_none hother] at hp
      exact ih hp
    | some q =>
      rw [reserve_eq_of_get? hother, Arena.get?_modify] at hp
      split at hp
      · obtain ⟨-, -, rfl⟩ := Option.map_eq_some_iff.mp hp
        exact (ih (‹id = other› ▸ hother)).reserve name
      · exact ih hp

theorem Made.lookup_lt {p : Pool} (h : Made pools) (hp : pools.get? id = some p)
    (hl : p.lookup name = some slot) : slot < p.size := (h.inStep hp).lookup_lt hl

end Pools

end FlatScope
