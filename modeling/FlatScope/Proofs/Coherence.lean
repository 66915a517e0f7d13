import FlatScope.Proofs.Locals

/-!
# Slots and the pools they come from

A slot is attached only with what the pool of the node says of its name, and names are never taken
out of a pool or moved in it (`Pools.Grows`). So whatever a tree is numbered from, in whatever order
and however often, and wherever a run stops, the slots and frames at its nodes agree with the pools
(`coherent_of_calls`).
-/

namespace FlatScope

/-! ## Pools that grow -/

namespace Pool

variable {p q : Pool} {name : String} {slot : Nat}

/-- Reserving a name leaves the others where they are. -/
theorem reserve_grows (h : p.reserve name = (some slot, q)) :
    q.lookup name = some slot ∧ p.size ≤ q.size ∧
      ∀ other s, p.lookup other = some s → q.lookup other = some s := by
  cases reserves_of_eq h with
  | known hslot => exact ⟨hslot, Nat.le_refl _, fun _ _ h => h⟩
  | added hnew _ _ _ hsize hslots =>
    refine ⟨?_, by omega, fun other s hother => ?_⟩
    · rw [lookup_of_insert hslots, if_pos rfl]
      rfl
    · rw [lookup_of_insert hslots, if_neg, hother]
      rintro rfl
      cases hnew.symm.trans hother

end Pool

namespace Pools

variable {pools pools' : Pools} {id : PoolId} {p : Pool} {name : String} {slot : Nat}

/-- The pools are still there, with every name where it was. -/
def Grows (pools pools' : Pools) : Prop :=
  ∀ id p, pools.get? id = some p → ∃ p', pools'.get? id = some p' ∧ p.size ≤ p'.size ∧
    ∀ name slot, p.lookup name = some slot → p'.lookup name = some slot

theorem Grows.refl (pools : Pools) : Grows pools pools := fun _ p hp =>
  ⟨p, hp, Nat.le_refl _, fun _ _ h => h⟩

theorem Grows.trans {pools'' : Pools} (h : Grows pools pools') (h' : Grows pools' pools'') :
    Grows pools pools'' := by
  intro id p hp
  obtain ⟨p', hp', hsize, hlookup⟩ := h id p hp
  obtain ⟨p'', hp'', hsize', hlookup'⟩ := h' id p' hp'
  exact ⟨p'', hp'', Nat.le_trans hsize hsize', fun name slot h => hlookup' _ _ (hlookup _ _ h)⟩

/-- Reserving a name in one pool takes nothing from any. -/
theorem grows_reserve (h : pools.reserve id name = (some slot, pools')) :
    Grows pools pools' ∧ ∃ p, pools'.get? id = some p ∧ p.lookup name = some slot := by
  obtain ⟨a, b, ha, hb, rfl⟩ := reserve_eq_some h
  obtain ⟨hslot, hsize, hlookup⟩ := Pool.reserve_grows hb
  have hid : (pools.modify id fun _ => b).get? id = some b := by
    rw [Arena.get?_modify, if_pos rfl, ha]
    rfl
  refine ⟨fun other p hp => ?_, b, hid, hslot⟩
  by_cases heq : other = id
  · subst heq
    obtain rfl := Option.some.inj (ha.symm.trans hp)
    exact ⟨b, hid, hsize, hlookup⟩
  · refine ⟨p, ?_, Nat.le_refl _, fun _ _ h => h⟩
    rw [Arena.get?_modify, if_neg heq]
    exact hp

end Pools

namespace Slots

variable {ast : Ast} {facts : Annotations} {pools pools' : Pools} {p : Place} {n : Node}
  {pool : PoolId} {l l' : Ledger}

/-! ## What a step does -/

/-- The slots and frames at nodes are what the pools of these nodes say. -/
structure Coherent (ast : Ast) (facts : Annotations) (pools : Pools) : Prop where
  /-- a slot is that of the name which the node declares or reads; -/
  slot : ∀ id slot, facts.fetch .slot id = some slot → ∃ n name pool p, ast.get? id = some n ∧
    (n.kind.naming = .declares name ∨ n.kind.naming = .reads name) ∧
    facts.fetch .pool id = some pool ∧ pools.get? pool = some p ∧
    p.lookup name = some slot ∧ slot < p.size
  /-- a frame belongs to a function, holds `this`, and is no larger than its pool. -/
  frame : ∀ id size, facts.fetch .frame id = some size → ∃ n pool p, ast.get? id = some n ∧
    n.kind.naming = .frame ∧ facts.fetch .pool id = some pool ∧ pools.get? pool = some p ∧
    (p.lookup "this").isSome ∧ 1 ≤ size ∧ size ≤ p.size

def Ledger.Coherent (l : Ledger) (ast : Ast) (facts : Annotations) : Prop :=
  Slots.Coherent ast (l.state facts []).facts l.pools

theorem Coherent.grow (h : Coherent ast facts pools) (hgrows : pools.Grows pools') :
    Coherent ast facts pools' := by
  refine ⟨fun id slot hslot => ?_, fun id size hsize => ?_⟩
  · obtain ⟨n, name, pool, p, hn, hname, hpool, hp, hlookup, hlt⟩ := h.slot id slot hslot
    obtain ⟨p', hp', hle, hkeep⟩ := hgrows pool p hp
    exact ⟨n, name, pool, p', hn, hname, hpool, hp', hkeep _ _ hlookup, Nat.lt_of_lt_of_le hlt hle⟩
  · obtain ⟨n, pool, p, hn, hframe, hpool, hp, hthis, hone, hle⟩ := h.frame id size hsize
    obtain ⟨p', hp', hle', hkeep⟩ := hgrows pool p hp
    obtain ⟨slot, hslot⟩ := Option.isSome_iff_exists.mp hthis
    exact ⟨n, pool, p', hn, hframe, hpool, hp',
      Option.isSome_iff_exists.mpr ⟨slot, hkeep _ _ hslot⟩, hone, Nat.le_trans hle hle'⟩

/-- Attaching the slot that a name has in the node's pool. -/
theorem Ledger.Coherent.withSlot (h : l.Coherent ast facts) (hmade : l.pools.Made)
    (hn : ast.get? n.id = some n) {name : String}
    (hname : n.kind.naming = .declares name ∨ n.kind.naming = .reads name)
    (hpool : facts.fetch .pool n.id = some pool) {p : Pool} (hp : l.pools.get? pool = some p)
    {slot : Nat} (hslot : p.lookup name = some slot) :
    (l.withSlot n.id slot).Coherent ast facts := by
  refine ⟨fun id s hs => ?_, h.frame⟩
  have hs : (l.slots.insert n.id slot).fetch id = some s := hs
  by_cases hid : n.id = id
  · subst hid
    obtain rfl := SideTable.eq_of_fetch_insert hs
    exact ⟨n, name, pool, p, hn, hname, hpool, hp, hslot, hmade.lookup_lt hp hslot⟩
  · exact h.slot id s ((SideTable.fetch_insert_cases hs).resolve_left hid)

/-- What a run may do to a ledger: fill the pools, and attach what they say. -/
structure Advances (ast : Ast) (facts : Annotations) (l l' : Ledger) : Prop where
  grows : l.pools.Grows l'.pools
  made : l.pools.Made → l'.pools.Made
  coherent : l.pools.Made → l.Coherent ast facts → l'.Coherent ast facts

/-- Attaching the size that the pool of a function has, once `this` is in it. -/
theorem Ledger.Coherent.withFrame (h : l.Coherent ast facts) (hmade : l.pools.Made)
    (hn : ast.get? n.id = some n) (hframe : n.kind.naming = .frame)
    (hpool : facts.fetch .pool n.id = some pool) {p : Pool} (hp : l.pools.get? pool = some p)
    {slot : Nat} (hthis : p.lookup "this" = some slot) :
    Ledger.Coherent { l with frames := l.frames.insert n.id p.size } ast facts := by
  refine ⟨h.slot, fun id size hsize => ?_⟩
  have hsize : (l.frames.insert n.id p.size).fetch id = some size := hsize
  by_cases hid : n.id = id
  · subst hid
    obtain rfl := SideTable.eq_of_fetch_insert hsize
    have hlt := hmade.lookup_lt hp hthis
    exact ⟨n, pool, p, hn, hframe, hpool, hp, Option.isSome_iff_exists.mpr ⟨slot, hthis⟩,
      Nat.one_le_of_lt hlt, Nat.le_refl _⟩
  · exact h.frame id size ((SideTable.fetch_insert_cases hsize).resolve_left hid)

theorem Advances.refl (l : Ledger) : Advances ast facts l l := ⟨.refl _, id, fun _ h => h⟩

theorem Advances.trans {l'' : Ledger} (h : Advances ast facts l l')
    (h' : Advances ast facts l' l'') : Advances ast facts l l'' :=
  ⟨h.grows.trans h'.grows, fun hmade => h'.made (h.made hmade),
    fun hmade hl => h'.coherent (h.made hmade) (h.coherent hmade hl)⟩

theorem Advances.andThen {v w : Walk Ledger Diagnostic} (hv : Advances ast facts l (v l).2)
    (hw : ∀ l' , v l = (.ok (), l') → Advances ast facts l' (w l').2) :
    Advances ast facts l ((v.andThen w) l).2 :=
  Walk.andThen_relates (R := Advances ast facts) .trans hv hw

/-- Reserving a name either fails and changes nothing, or goes on with its slot. -/
theorem reserve_cases (ast : Ast) (facts : Annotations) (pool : PoolId) (name : String) (loc : Loc)
    (next : Nat → Walk Ledger Diagnostic) (l : Ledger) :
    (∃ d, reserve pool name loc next l = (.error d, l)) ∨
      ∃ slot pools p, Advances ast facts l { l with pools } ∧ pools.get? pool = some p ∧
        p.lookup name = some slot ∧
        reserve pool name loc next l = next slot { l with pools } := by
  unfold reserve
  split
  · exact .inl ⟨_, rfl⟩
  · split
    · exact .inl ⟨_, rfl⟩
    · next slot pools hr =>
      obtain ⟨hgrows, p, hp, hslot⟩ := Pools.grows_reserve hr
      refine .inr ⟨slot, pools, p, ⟨hgrows, fun hmade => ?_, fun _ h => Coherent.grow h hgrows⟩,
        hp, hslot, rfl⟩
      have hmade' := Pools.Made.reserve pool name hmade
      rwa [hr] at hmade'

/-- Coming to a node attaches the slot of its name, or none; a function reserves `this`. -/
theorem advances_enterNode (hn : ast.get? n.id = some n)
    (hpool : facts.fetch .pool n.id = some pool) (inType : Bool) (l : Ledger) :
    Advances ast facts l (enterNode pool inType n l).2 ∧
      (n.kind.naming = .frame → ∀ l', enterNode pool inType n l = (.ok (), l') →
        ∃ p slot, l'.pools.get? pool = some p ∧ p.lookup "this" = some slot) := by
  unfold enterNode
  cases hnaming : n.kind.naming with
  | frame =>
    rcases reserve_cases ast facts pool "this" n.loc (fun _ => Walk.done) l with
      ⟨d, hfail⟩ | ⟨slot, pools, p, hadvances, hp, hslot, hrun⟩
    · simp only [hfail]
      exact ⟨.refl l, fun _ l' h => by cases h⟩
    · simp only [hrun]
      refine ⟨hadvances, fun _ l' h => ?_⟩
      cases h
      exact ⟨p, slot, hp, hslot⟩
  | declares name =>
    refine ⟨?_, fun h => by cases h⟩
    rcases reserve_cases ast facts pool name n.loc
        (fun slot => Walk.modify (·.withSlot n.id slot)) l with
      ⟨d, hfail⟩ | ⟨slot, pools, p, hadvances, hp, hslot, hrun⟩
    · simp only [hfail]
      exact .refl l
    · simp only [hrun]
      exact hadvances.trans ⟨.refl _, id, fun hmade h =>
        h.withSlot hmade hn (.inl hnaming) hpool hp hslot⟩
  | reads name =>
    refine ⟨?_, fun h => by cases h⟩
    show Advances ast facts l (if inType then l else l.read pool name n.id)
    split
    · exact .refl l
    · unfold Ledger.read
      split
      · next slot hslot =>
        obtain ⟨p, hp, hslot⟩ := Option.bind_eq_some_iff.mp hslot
        exact ⟨.refl _, id, fun hmade h => h.withSlot hmade hn (.inr hnaming) hpool hp hslot⟩
      · exact .refl l
  | type | unread | other => exact ⟨.refl l, fun h => by cases h⟩

/-- Leaving a node attaches the frame of a function in whose pool `this` is. -/
theorem advances_leaveNode (hn : ast.get? n.id = some n)
    (hpool : facts.fetch .pool n.id = some pool) (l : Ledger)
    (hthis : n.kind.naming = .frame →
      ∃ p slot, l.pools.get? pool = some p ∧ p.lookup "this" = some slot) :
    Advances ast facts l (leaveNode pool n l).2 := by
  unfold leaveNode
  split
  · next hframe =>
    obtain ⟨p, slot, hp, hslot⟩ := hthis hframe
    simp only [hp]
    exact ⟨.refl _, id, fun hmade h => h.withFrame hmade hn hframe hpool hp hslot⟩
  · exact .refl l

/-! ## Runs -/

/-- A run over a tree that is there advances, whether it fails or not. -/
theorem advances_events (facts : Annotations) (source : Nat) {o : Outline} (ho : ast.Unfolds o)
    (path : List Nat) (above : List Spot) (l : Ledger) : Advances ast facts l
      (Walk.through (enter source facts) (leave facts) (o.events path above) l).2 := by
  induction ho generalizing path above l with
  | missing hid =>
    rw [Outline.events, Walk.through, Walk.through, Walk.andThen_done]
    exact .refl l
  | @node n children hn hk hs ih =>
    have hall : ∀ (i : Nat) (above : List Spot) (l : Ledger), Advances ast facts l
        (Walk.through (enter source facts) (leave facts)
          (Outline.eventsOfAll path above i children) l).2 := by
      clear hk hs
      induction children with
      | nil => exact fun _ _ l => .refl l
      | cons o os ihos =>
        obtain ⟨ho, hos⟩ := List.forall_mem_cons.mp ih
        intro i above l
        rw [Outline.eventsOfAll, Walk.through_append]
        exact (ho _ _ l).andThen fun l' _ => ihos hos (i + 1) above l'
    rw [Outline.events, Walk.through, Walk.through_append]
    let p : Place := ⟨path, above, n.id, some n⟩
    have hlast : Walk.through (enter source facts) (leave facts) [.leave p] = leave facts p :=
      Walk.andThen_done _
    rw [hlast]
    cases hpool : facts.fetch .pool n.id with
    | none =>
      rw [enter_of_none rfl hpool]
      exact .refl l
    | some pool =>
      rw [enter_of_some rfl hpool, leave_of_some rfl hpool]
      obtain ⟨henter, hthis⟩ := advances_enterNode hn hpool (above.any Spot.isType) l
      refine henter.andThen fun l₁ h₁ => ?_
      refine (hall 0 (⟨path, n⟩ :: above) l₁).andThen fun l₂ h₂ => ?_
      -- what was reserved on entering is still there
      refine advances_leaveNode hn hpool l₂ fun hframe => ?_
      obtain ⟨q, slot, hq, hslot⟩ := hthis hframe l₁ h₁
      have hgrows : l₁.pools.Grows l₂.pools := by
        have := (hall 0 (⟨path, n⟩ :: above) l₁).grows
        rwa [h₂] at this
      obtain ⟨q', hq', -, hkeep⟩ := hgrows pool q hq
      exact ⟨q', slot, hq', hkeep _ _ hslot⟩

/-- What a row of calls makes of a state, by one pass or by several. -/
inductive Calls (ast : Ast) : State → State → Prop where
  | none (s : State) : Calls ast s s
  | call {s t : State} (id : NodeId) : Calls ast s t → Calls ast s (traverse ast id t).2
  | renew {s t : State} : Calls ast s t → Calls ast s { facts := t.facts, pools := t.pools }

/--
Whatever is numbered from, in whatever order, and wherever it fails: a slot at a node is that of
its name in its own pool, and a frame at a function holds `this` and is no larger than its pool.
-/
theorem coherent_of_calls {s : State} (hacyclic : ∀ root, ast.Acyclic root) (hmade : pools.Made)
    (hslots : ∀ id, facts.fetch .slot id = none) (hframes : ∀ id, facts.fetch .frame id = none)
    (h : Calls ast { facts, pools } s) : Coherent ast s.facts s.pools := by
  -- between two calls a pass is at rest, and the pools of the nodes are those of the start
  have key : ∃ l : Ledger, l.state facts [] = s ∧ l.pools.Made ∧ l.Coherent ast facts := by
    generalize hstart : ({ facts, pools } : State) = start at h
    induction h with
    | none =>
      subst hstart
      refine ⟨⟨facts.slots, facts.frames, pools⟩, rfl, hmade, fun id slot h => ?_,
        fun id size h => ?_⟩
      · cases (hslots id).symm.trans h
      · cases (hframes id).symm.trans h
    | call id _ ih =>
      obtain ⟨l, rfl, hl, hcoherent⟩ := ih
      have hrun : traverse ast id (l.state facts []) = _ :=
        (follows_enter ast.source facts).visit_outline (hacyclic id).unfolds_outline l
      have hadvances := advances_events facts ast.source (hacyclic id).unfolds_outline
        [] [] l
      rw [hrun]
      exact ⟨_, rfl, hadvances.made hl, hadvances.coherent hl hcoherent⟩
    | renew _ ih =>
      obtain ⟨l, rfl, hl, hcoherent⟩ := ih
      exact ⟨l, rfl, hl, hcoherent⟩
  obtain ⟨l, rfl, -, hcoherent⟩ := key
  exact hcoherent

/-- A body is numbered before its function, in a pool that holds a name; then a call fails. -/
theorem coherent_of_calls_body : ∃ (ast : Ast) (facts : Annotations) (pools : Pools) (s : State),
    (∀ root, ast.Acyclic root) ∧ pools.Made ∧ (∀ id, facts.fetch .slot id = none) ∧
    (∀ id, facts.fetch .frame id = none) ∧ Calls ast { facts, pools } s ∧
    s.facts.fetch .slot (.at 3 1) = some 1 ∧ s.facts.fetch .frame (.at 8 1) = some 3 ∧
    Coherent ast s.facts s.pools := by
  let ast := ((((((((Ast.empty 0).add (.type .int) ⟨0, 11, 14⟩).2.add (.declaration (.at 1 1) "x")
    ⟨0, 11, 17⟩).2.add (.identifier "x" none) ⟨0, 18, 19⟩).2.add (.statements [.at 2 1, .at 3 1])
    ⟨0, 9, 22⟩).2.add (.compound (.at 4 1)) ⟨0, 9, 22⟩).2.add (.params []) ⟨0, 6, 8⟩).2.add
    (.type .void) ⟨0, 0, 4⟩).2.add (.function (.at 7 1) "f" (.at 6 1) (.at 5 1)) ⟨0, 0, 22⟩
    |>.2
  have hacyclic : ast.Rising := ((((((((Ast.rising_empty 0).add (by decide)).add (by decide)).add
    (by decide)).add (by decide)).add (by decide)).add (by decide)).add (by decide)).add (by decide)
  let opened : Pools := (Pools.create .empty .function).2
  let pools : Pools := (opened.reserve (.at 1 1) "y").2
  let facts : Annotations := [1, 2, 3, 4, 5, 6, 7, 8].foldl
    (fun facts index => facts.insert .pool (.at index 1) (.at 1 1)) .empty
  have hmade : pools.Made := .reserve (.at 1 1) "y" (.create .function .empty)
  have hcalls : Calls ast { facts, pools } _ :=
    .call .null (.call (.at 8 1) (.call (.at 5 1) (.none _)))
  exact ⟨ast, facts, pools, _, hacyclic.acyclic, hmade, SideTable.fetch_empty,
    SideTable.fetch_empty, hcalls, by decide +kernel, by decide +kernel,
    coherent_of_calls hacyclic.acyclic hmade SideTable.fetch_empty SideTable.fetch_empty hcalls⟩

end Slots

end FlatScope
