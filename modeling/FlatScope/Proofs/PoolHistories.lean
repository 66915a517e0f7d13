import FlatScope.Proofs.Coherence

/-!
# Histories of pools

Pools are opened, written to and read in any order, beginning with none (`Op`, `play`). What a pool
holds in the end can be read off the answers given on the way: its slots number the different names
that were reserved in it, in the order in which they first were (`Kept`). It stays so whatever is
done next, to this pool or to others (`grows_play`).
-/

namespace FlatScope

namespace Pools

/-- What is done with pools. -/
inductive Op where
  | create (kind : PoolKind)
  | reserve (id : PoolId) (name : String)
  | lookup (id : PoolId) (name : String)
deriving DecidableEq, Repr

/-- What comes of it: the id of a new pool, or the slot of a name. -/
inductive Answer where
  | created (id : PoolId)
  | slot (slot? : Option Nat)
deriving DecidableEq, Repr

def Op.run (pools : Pools) : Op → Answer × Pools
  | .create kind => (.created (pools.create kind).1, (pools.create kind).2)
  | .reserve id name => (.slot (pools.reserve id name).1, (pools.reserve id name).2)
  | .lookup id name => (.slot ((pools.get? id).bind (·.lookup name)), pools)

/-- Operations in order, each with its answer, and the pools at the end. -/
def play (ops : List Op) : List (Op × Answer) × Pools :=
  ops.foldl (fun s op => (s.1 ++ [(op, (op.run s.2).1)], (op.run s.2).2)) ([], .empty)

theorem play_concat (ops : List Op) (op : Op) : play (ops ++ [op]) =
    ((play ops).1 ++ [(op, (op.run (play ops).2).1)], (op.run (play ops).2).2) := by
  unfold play
  rw [List.foldl_append]
  rfl

/-- The id of a pool that was opened. -/
def created? : Op × Answer → Option PoolId
  | (_, .created id) => some id
  | _ => none

/-- A name that was reserved in a pool, and the slot it was given. -/
def reserved? (id : PoolId) : Op × Answer → Option (String × Nat)
  | (.reserve id' name, .slot (some slot)) => if id' = id then some (name, slot) else none
  | _ => none

variable {past : List (Op × Answer)} {pools pools' : Pools} {id : PoolId} {p : Pool} {name : String}
  {slot : Nat}

/-- The pools that were opened, in order. -/
def created (past : List (Op × Answer)) : List PoolId := past.filterMap created?

/-- What was reserved in a pool, in order. -/
def reserved (past : List (Op × Answer)) (id : PoolId) : List (String × Nat) :=
  past.filterMap (reserved? id)

/-- The different names reserved in a pool, in the order in which they first were. -/
def names (past : List (Op × Answer)) (id : PoolId) : List String :=
  ((reserved past id).map Prod.fst).eraseDups

theorem nodup_names (past : List (Op × Answer)) (id : PoolId) : (names past id).Nodup :=
  Pool.nodup_eraseDups _

theorem reserved_concat (past : List (Op × Answer)) (x : Op × Answer) (id : PoolId) :
    reserved (past ++ [x]) id = reserved past id ++ (reserved? id x).toList := by
  unfold reserved
  rw [List.filterMap_append]
  cases h : reserved? id x <;> simp [h]

theorem reserved_concat_of_none {x : Op × Answer} (h : reserved? id x = none) :
    reserved (past ++ [x]) id = reserved past id := by
  rw [reserved_concat, h, Option.toList_none, List.append_nil]

theorem created_concat (past : List (Op × Answer)) (x : Op × Answer) :
    created (past ++ [x]) = created past ++ (created? x).toList := by
  unfold created
  rw [List.filterMap_append]
  cases h : created? x <;> simp [h]

/-- The pool numbers the names reserved in it, within its bounds. -/
structure Holds (past : List (Op × Answer)) (id : PoolId) (p : Pool) : Prop where
  id_eq : p.id = id
  lists : p.Lists (names past id)
  fits : (names past id).length ≤ maxSlots
  /-- Each name has the slot that it was given first, -/
  first : ∀ name, p.lookup name = (reserved past id).lookup name
  /-- and it was given no other since. -/
  every : ∀ name slot, (name, slot) ∈ reserved past id → p.lookup name = some slot

/-- The pools are those that were opened, and each holds what was reserved in it. -/
structure Kept (past : List (Op × Answer)) (pools : Pools) : Prop where
  nodup : (created past).Nodup
  mem_created : ∀ id, id ∈ created past ↔ (pools.get? id).isSome
  holds : ∀ id p, pools.get? id = some p → Holds past id p
  /-- Nothing was reserved where there is no pool. -/
  vacant : ∀ id, pools.get? id = none → reserved past id = []

theorem Holds.congr {past' : List (Op × Answer)} (h : Holds past id p)
    (hr : reserved past' id = reserved past id) : Holds past' id p := by
  have hn : names past' id = names past id := by
    unfold names
    rw [hr]
  exact ⟨h.id_eq, hn ▸ h.lists, hn ▸ h.fits, hr ▸ h.first, hr ▸ h.every⟩

/-- A pool in which nothing was reserved is empty. -/
theorem holds_of_vacant (kind : PoolKind) (hr : reserved past id = []) :
    Holds past id { id, kind } := by
  have hn : names past id = [] := by
    unfold names
    rw [hr]
    rfl
  exact ⟨rfl, hn ▸ Pool.lists_nil id kind, hn ▸ Nat.zero_le _, fun name => hr ▸ rfl,
    fun name slot hmem => by rw [hr] at hmem; cases hmem⟩

theorem kept_empty : Kept [] .empty where
  nodup := .nil
  mem_created id := by simp [created]
  holds id p hp := by rw [Arena.get?_empty] at hp; cases hp
  vacant _ _ := rfl

/-- An operation that only answers. -/
theorem Kept.answer (h : Kept past pools) {x : Op × Answer} (hcreated : created? x = none)
    (hreserved : ∀ id, reserved? id x = none) : Kept (past ++ [x]) pools := by
  have hr : ∀ id, reserved (past ++ [x]) id = reserved past id := fun id =>
    reserved_concat_of_none (hreserved id)
  have hc : created (past ++ [x]) = created past := by
    rw [created_concat, hcreated, Option.toList_none, List.append_nil]
  exact ⟨hc ▸ h.nodup, hc ▸ h.mem_created, fun id p hp => (h.holds id p hp).congr (hr id),
    fun id hid => (hr id).trans (h.vacant id hid)⟩

/-- An operation on one pool. -/
theorem Kept.put (h : Kept past pools) {x : Op × Answer} {q : Pool}
    (hset : pools'.get? id = some q)
    (hrest : ∀ other, other ≠ id → pools'.get? other = pools.get? other)
    (hother : ∀ other, other ≠ id → reserved? other x = none)
    (hnodup : (created (past ++ [x])).Nodup)
    (hmem : ∀ other, other ∈ created (past ++ [x]) ↔ other = id ∨ other ∈ created past)
    (hq : Holds (past ++ [x]) id q) : Kept (past ++ [x]) pools' := by
  have hr : ∀ other, other ≠ id → reserved (past ++ [x]) other = reserved past other :=
    fun other hne => reserved_concat_of_none (hother other hne)
  refine ⟨hnodup, fun other => ?_, fun other p hp => ?_, fun other hvacant => ?_⟩
  all_goals by_cases heq : other = id
  · rw [hmem, heq, hset]
    exact iff_of_true (.inl rfl) rfl
  · rw [hmem, or_iff_right heq, hrest other heq]
    exact h.mem_created other
  · subst heq
    cases hset.symm.trans hp
    exact hq
  · exact (h.holds other p (hrest other heq ▸ hp)).congr (hr other heq)
  · rw [heq, hset] at hvacant
    cases hvacant
  · exact (hr other heq).trans (h.vacant other (hrest other heq ▸ hvacant))

/-- A new pool has an id that was not given out before, and is empty. -/
theorem Kept.create (h : Kept past pools) (kind : PoolKind) :
    Kept (past ++ [(.create kind, .created (pools.create kind).1)]) (pools.create kind).2 := by
  have hkey : pools.get? (pools.create kind).1 = none := pools.get?_insert_key _
  have hc : created (past ++ [(.create kind, .created (pools.create kind).1)]) =
      created past ++ [(pools.create kind).1] := created_concat _ _
  have hnew : (pools.create kind).1 ∉ created past := by
    rw [h.mem_created, hkey]
    exact Bool.false_ne_true
  have hset : (pools.create kind).2.get? (pools.create kind).1 =
      some { id := (pools.create kind).1, kind } := (pools.get?_insert _ _).trans (if_pos rfl)
  refine h.put hset (fun other hne => (pools.get?_insert _ other).trans (if_neg hne))
    (fun _ _ => rfl) ?_ (fun other => ?_) ?_
  · rw [hc]
    exact List.nodup_append'.mpr
      ⟨h.nodup, List.nodup_singleton _, List.disjoint_singleton.mpr hnew⟩
  · rw [hc, List.mem_append, List.mem_singleton, or_comm]
  · exact holds_of_vacant kind ((reserved_concat_of_none rfl).trans (h.vacant _ hkey))

/-- A name keeps the slot it has, or else gets the one that is answered. -/
theorem lookup_of_reserve {q : Pool} (h : p.reserve name = (some slot, q)) : q.id = p.id ∧
    ∀ other, q.lookup other = (p.lookup other).or (List.lookup other [(name, slot)]) := by
  cases Pool.reserves_of_eq h with
  | known hname =>
    refine ⟨rfl, fun other => ?_⟩
    by_cases heq : other = name
    · rw [heq, hname, Option.some_or]
    · rw [List.lookup_cons, beq_false_of_ne heq, List.lookup_nil, Option.or_none]
  | added hnew _ hid _ _ hslots =>
    refine ⟨hid, fun other => ?_⟩
    rw [Pool.lookup_of_insert hslots]
    by_cases heq : other = name
    · rw [heq, hnew, if_pos rfl, Option.none_or, List.lookup_cons_self]
      rfl
    · rw [if_neg heq, List.lookup_cons, beq_false_of_ne heq, List.lookup_nil, Option.or_none]

/-- The names of a pool and their number go on together. -/
theorem lists_of_reserve {made : List String} {q : Pool} (hlists : p.Lists made.eraseDups)
    (hfits : made.eraseDups.length ≤ maxSlots) (h : p.reserve name = (some slot, q)) :
    q.Lists (made ++ [name]).eraseDups ∧ (made ++ [name]).eraseDups.length ≤ maxSlots := by
  by_cases hroom : (made ++ [name]).eraseDups.length ≤ maxSlots
  · obtain ⟨q', hq', hlists'⟩ := hlists.reserve_concat hroom
    cases hq'.symm.trans h
    exact ⟨hlists', hroom⟩
  · rw [hlists.reserve_concat_full hfits (Nat.lt_of_not_le hroom)] at h
    cases h

/-- A name that is reserved comes to its pool, -/
theorem Holds.reserve (h : Holds past id p) {q : Pool} (hq : p.reserve name = (some slot, q)) :
    Holds (past ++ [(.reserve id name, .slot (some slot))]) id q := by
  have hr : reserved (past ++ [(.reserve id name, .slot (some slot))]) id =
      reserved past id ++ [(name, slot)] := by
    rw [reserved_concat]
    simp [reserved?]
  have hn : names (past ++ [(.reserve id name, .slot (some slot))]) id =
      ((reserved past id).map Prod.fst ++ [name]).eraseDups := by
    unfold names
    rw [hr, List.map_append]
    rfl
  obtain ⟨hid, hlookup⟩ := lookup_of_reserve hq
  obtain ⟨hlists, hfits⟩ := lists_of_reserve h.lists h.fits hq
  obtain ⟨hslot, -, hkept⟩ := Pool.reserve_grows hq
  refine ⟨hid.trans h.id_eq, hn ▸ hlists, hn ▸ hfits, fun other => ?_, fun other s hmem => ?_⟩
  · rw [hr, List.lookup_append, hlookup, h.first]
  · rw [hr, List.mem_append, List.mem_singleton] at hmem
    rcases hmem with hmem | hmem
    · exact hkept other s (h.every other s hmem)
    · obtain ⟨rfl, rfl⟩ := Prod.mk.inj hmem
      exact hslot

/-- and to no other. -/
theorem Kept.reserve (h : Kept past pools) (hr : pools.reserve id name = (some slot, pools')) :
    Kept (past ++ [(.reserve id name, .slot (some slot))]) pools' := by
  obtain ⟨p, q, hp, hq, rfl⟩ := reserve_eq_some hr
  have hc : created (past ++ [(.reserve id name, .slot (some slot))]) = created past := by
    rw [created_concat]
    exact List.append_nil _
  have hin : id ∈ created past := by
    rw [h.mem_created, hp]
    rfl
  refine h.put ?_ (fun other hne => ?_) (fun other hne => if_neg hne.symm) (hc ▸ h.nodup)
    (fun other => ?_) ((h.holds id p hp).reserve hq)
  · rw [Arena.get?_modify, if_pos rfl, hp]
    rfl
  · rw [Arena.get?_modify, if_neg hne]
  · rw [hc]
    exact ⟨.inr, fun hmem => hmem.elim (fun heq => heq ▸ hin) fun hold => hold⟩

/-- What one operation keeps. -/
theorem Kept.run (h : Kept past pools) (op : Op) :
    Kept (past ++ [(op, (op.run pools).1)]) (op.run pools).2 := by
  cases op with
  | create kind => exact h.create kind
  | reserve id name =>
    cases hr : pools.reserve id name with
    | mk slot? pools' =>
      simp only [Op.run, hr]
      cases slot? with
      | some slot => exact h.reserve hr
      | none =>
        obtain rfl := eq_of_reserve_none hr
        exact h.answer rfl fun _ => rfl
  | lookup id name => exact h.answer rfl fun _ => rfl

theorem kept_play (ops : List Op) : Kept (play ops).1 (play ops).2 := by
  induction ops using List.reverseRecOn with
  | nil => exact kept_empty
  | append_singleton ops op ih =>
    rw [play_concat]
    exact ih.run op

/-- The pools came about by opening and reserving. -/
theorem Made.run (h : Made pools) (op : Op) : Made (op.run pools).2 := by
  cases op with
  | create kind => exact h.create kind
  | reserve id name => exact h.reserve id name
  | lookup id name => exact h

theorem made_play (ops : List Op) : Made (play ops).2 := by
  induction ops using List.reverseRecOn with
  | nil => exact .empty
  | append_singleton ops op ih =>
    rw [play_concat]
    exact ih.run op

/-! ## What an operation leaves alone -/

theorem grows_run (pools : Pools) (op : Op) : Grows pools (op.run pools).2 := by
  cases op with
  | create kind =>
    exact fun id p hp => ⟨p, Arena.get?_insert_of_some hp, Nat.le_refl _, fun _ _ h => h⟩
  | reserve id name =>
    cases hr : pools.reserve id name with
    | mk slot? pools' =>
      simp only [Op.run, hr]
      cases slot? with
      | some slot => exact (grows_reserve hr).1
      | none =>
        obtain rfl := eq_of_reserve_none hr
        exact .refl _
  | lookup id name => exact .refl pools

/-- A slot that was given stays with its name. -/
theorem grows_play (ops more : List Op) : Grows (play ops).2 (play (ops ++ more)).2 := by
  induction more using List.reverseRecOn with
  | nil =>
    rw [List.append_nil]
    exact .refl _
  | append_singleton more op ih =>
    rw [← List.append_assoc, play_concat]
    exact ih.trans (grows_run _ op)

/-- Only the pool that a name is reserved in changes. -/
theorem get?_run (hp : pools.get? id = some p) {op : Op} (hne : ∀ name, op ≠ .reserve id name) :
    (op.run pools).2.get? id = some p := by
  cases op with
  | create kind => exact Arena.get?_insert_of_some hp
  | reserve other name =>
    have hid : id ≠ other := fun heq => hne name (heq ▸ rfl)
    show (pools.reserve other name).2.get? id = some p
    cases hother : pools.get? other with
    | none => rwa [reserve_of_get?_none hother]
    | some q => rwa [reserve_eq_of_get? hother, Arena.get?_modify, if_neg hid]
  | lookup other name => exact hp

/-- Reserving fails for a new name in a full pool. -/
theorem run_reserve_eq_none (hp : pools.get? id = some p) :
    ((Op.reserve id name).run pools).1 = .slot none ↔
      p.lookup name = none ∧ p.size = maxSlots := by
  show Answer.slot (pools.reserve id name).1 = .slot none ↔ _
  rw [reserve_eq_of_get? hp, Answer.slot.injEq]
  cases hr : p.reserve name with
  | mk slot? q =>
    cases Pool.reserves_of_eq hr with
    | known hslot => simp [hslot]
    | full hnew hsize => simp [hnew, hsize]
    | added _ hroom => simp [Nat.ne_of_lt hroom]

theorem run_snd_of_none {op : Op} (h : (op.run pools).1 = .slot none) :
    (op.run pools).2 = pools := by
  cases op with
  | create kind => cases h
  | reserve id name => exact reserve_snd_of_none (Answer.slot.inj h)
  | lookup id name => rfl

/-! ## What pools hold -/

/-- A pool holds what was reserved in it. -/
structure Numbers (past : List (Op × Answer)) (id : PoolId) (p : Pool) : Prop where
  id_eq : p.id = id
  /-- Its slots are the positions of the different names, in the order in which they came, -/
  nodup : (names past id).Nodup
  size_eq : p.size = (names past id).length
  slot : ∀ name slot, p.lookup name = some slot ↔ (names past id)[slot]? = some name
  /-- so that they are all the numbers below its counter, which counts them, and none has two
  names, -/
  inStep : p.InStep
  fits : p.size ≤ maxSlots
  /-- and the slot of a name is the one that was answered when it was first reserved, and whenever
  it was reserved again. -/
  first : ∀ name, p.lookup name = (reserved past id).lookup name
  every : ∀ name slot, (name, slot) ∈ reserved past id → p.lookup name = some slot

theorem Holds.numbers (h : Holds past id p) (hstep : p.InStep) : Numbers past id p where
  id_eq := h.id_eq
  nodup := nodup_names past id
  size_eq := h.lists.size_eq
  slot _ _ := h.lists.lookup_eq_some_iff (nodup_names past id)
  inStep := hstep
  fits := h.lists.size_eq ▸ h.fits
  first := h.first
  every := h.every

/--
Whatever is done with pools, no id is given out twice, an operation that fails changes nothing, and
each pool numbers the names reserved in it, refuses a name only if it is new and there is no room,
changes by nothing but its own reservations, and never takes a slot back.
-/
theorem pools_of_play (ops : List Op) :
    (created (play ops).1).Nodup ∧
    (∀ id, id ∈ created (play ops).1 ↔ ((play ops).2.get? id).isSome) ∧
    (∀ op : Op, (op.run (play ops).2).1 = .slot none → (op.run (play ops).2).2 = (play ops).2) ∧
    ∀ id p, (play ops).2.get? id = some p →
      Numbers (play ops).1 id p ∧
      (∀ name, ((Op.reserve id name).run (play ops).2).1 = .slot none ↔
        p.lookup name = none ∧ p.size = maxSlots) ∧
      (∀ op : Op, (∀ name, op ≠ .reserve id name) → (op.run (play ops).2).2.get? id = some p) ∧
      ∀ more, ∃ p', (play (ops ++ more)).2.get? id = some p' ∧
        ∀ name slot, p.lookup name = some slot → p'.lookup name = some slot := by
  have h := kept_play ops
  refine ⟨h.nodup, h.mem_created, fun op => run_snd_of_none, fun id p hp => ?_⟩
  have hp' := h.holds id p hp
  refine ⟨hp'.numbers ((made_play ops).inStep hp), fun name => run_reserve_eq_none hp,
    fun op => get?_run hp, fun more => ?_⟩
  obtain ⟨p', hp', -, hkeep⟩ := grows_play ops more id p hp
  exact ⟨p', hp', hkeep⟩

example : (play [.create .function, .reserve (.at 1 1) "this", .reserve (.at 1 1) "a",
    .create .global, .reserve (.at 2 1) "b", .reserve (.at 1 1) "this", .lookup (.at 1 1) "b",
    .lookup (.at 2 1) "b"]).1.map Prod.snd =
    [.created (.at 1 1), .slot (some 0), .slot (some 1), .created (.at 2 1), .slot (some 0),
      .slot (some 0), .slot none, .slot (some 0)] := by decide +kernel

end Pools

end FlatScope
