import Mathlib.Data.List.Induction
import Mathlib.Data.List.Nodup
import FlatScope.Proofs.Numbering

/-!
# Names in pools

A pool that was filled by reserving names holds each of them once, numbered in the order in which
they came first (`Pool.Lists`). `Tally` says so of all pools after a number of places was entered,
and `through_cases` that a run keeps it up until some frame is full.
-/

namespace FlatScope

namespace Pool

variable {p : Pool} {names : List String} {name : String}

/-- The pool numbers these names in this order, and no others. -/
structure Lists (p : Pool) (names : List String) : Prop where
  size_eq : p.size = names.length
  lookup_eq : ∀ name, p.lookup name = if name ∈ names then some (names.idxOf name) else none

theorem lists_nil (id : PoolId) (kind : PoolKind) : Lists { id, kind } [] where
  size_eq := rfl
  lookup_eq _ := rfl

theorem Lists.lookup_of_mem (h : p.Lists names) (hm : name ∈ names) :
    p.lookup name = some (names.idxOf name) := by rw [h.lookup_eq, if_pos hm]

theorem Lists.lookup_of_not_mem (h : p.Lists names) (hm : name ∉ names) : p.lookup name = none := by
  rw [h.lookup_eq, if_neg hm]

/-- The slots are the positions of the names. -/
theorem Lists.lookup_eq_some_iff (h : p.Lists names) (nodup : names.Nodup) {slot : Nat} :
    p.lookup name = some slot ↔ names[slot]? = some name := by
  constructor
  · intro hslot
    rw [h.lookup_eq] at hslot
    split at hslot
    · next hm =>
      obtain rfl := Option.some.inj hslot
      exact List.getElem?_idxOf hm
    · cases hslot
  · intro hget
    obtain ⟨hlt, rfl⟩ := List.getElem?_eq_some_iff.mp hget
    rw [h.lookup_of_mem (List.getElem_mem hlt), nodup.idxOf_getElem]

theorem Lists.reserve_of_mem (h : p.Lists names) (hm : name ∈ names) :
    p.reserve name = (some (names.idxOf name), p) := reserve_eq_of_lookup (h.lookup_of_mem hm)

/-- A new name gets the next number, if there is one. -/
theorem Lists.reserve_of_not_mem (h : p.Lists names) (hm : name ∉ names)
    (hroom : names.length < maxSlots) :
    ∃ p', p.reserve name = (some names.length, p') ∧ p'.Lists (names ++ [name]) := by
  have hnone := h.lookup_of_not_mem hm
  cases hr : p.reserve name with
  | mk slot? q =>
    cases reserves_of_eq hr with
    | known hslot => cases hnone.symm.trans hslot
    | full _ hsize => exact absurd (h.size_eq ▸ hsize) (Nat.ne_of_lt hroom)
    | added _ _ _ _ hsize hslots =>
      refine ⟨q, by rw [h.size_eq], by rw [hsize, h.size_eq, List.length_append]; rfl,
        fun other => ?_⟩
      rw [lookup_of_insert hslots]
      by_cases heq : other = name
      · subst heq
        rw [if_pos rfl, if_pos (List.mem_append_right _ (List.mem_singleton_self _)),
          List.idxOf_append_of_notMem hm, List.idxOf_cons_self, Nat.add_zero]
        exact congrArg some h.size_eq
      · rw [if_neg heq, h.lookup_eq]
        by_cases hmem : other ∈ names
        · rw [if_pos hmem, if_pos (List.mem_append_left _ hmem), List.idxOf_append_of_mem hmem]
        · have hnot : other ∉ names ++ [name] := by
            rw [List.mem_append, List.mem_singleton]
            exact fun h => h.elim hmem heq
          rw [if_neg hmem, if_neg hnot]

theorem Lists.reserve_of_full (h : p.Lists names) (hm : name ∉ names)
    (hfull : maxSlots ≤ names.length) : p.reserve name = (none, p) := by
  cases hr : p.reserve name with
  | mk slot? q =>
    cases reserves_of_eq hr with
    | known hslot => cases (h.lookup_of_not_mem hm).symm.trans hslot
    | full => rfl
    | added _ hroom => exact absurd (h.size_eq ▸ hroom) (Nat.not_lt.mpr hfull)

/-! ### Names that came repeatedly -/

theorem eraseDups_concat {α : Type} [BEq α] [LawfulBEq α] (l : List α) (a : α) :
    (l ++ [a]).eraseDups = if a ∈ l then l.eraseDups else l.eraseDups ++ [a] := by
  rw [List.eraseDups_append]
  split
  · next h => simp [List.removeAll, h]
  · next h =>
    have hnew : [a].removeAll l = [a] := by simp [List.removeAll, h]
    rw [hnew]
    rfl

theorem nodup_eraseDups (l : List String) : l.eraseDups.Nodup := by
  induction l using List.reverseRecOn with
  | nil => exact .nil
  | append_singleton l name ih =>
    rw [eraseDups_concat]
    split
    · exact ih
    · next hm =>
      refine List.nodup_append'.mpr ⟨ih, List.nodup_singleton name, ?_⟩
      exact List.disjoint_singleton.mpr fun h => hm (List.mem_eraseDups.mp h)

/-- Reserving one more name succeeds if there is room for it. -/
theorem Lists.reserve_concat {l : List String} (h : p.Lists l.eraseDups)
    (hroom : (l ++ [name]).eraseDups.length ≤ maxSlots) :
    ∃ p', p.reserve name = (some ((l ++ [name]).eraseDups.idxOf name), p') ∧
      p'.Lists (l ++ [name]).eraseDups := by
  rw [eraseDups_concat] at hroom ⊢
  by_cases hm : name ∈ l
  · rw [if_pos hm]
    exact ⟨p, h.reserve_of_mem (List.mem_eraseDups.mpr hm), h⟩
  · rw [if_neg hm, List.length_append, List.length_singleton] at hroom
    have hnew : name ∉ l.eraseDups := fun h => hm (List.mem_eraseDups.mp h)
    obtain ⟨p', hreserve, hlists⟩ := h.reserve_of_not_mem hnew hroom
    rw [if_neg hm, List.idxOf_append_of_notMem hnew, List.idxOf_cons_self, Nat.add_zero]
    exact ⟨p', hreserve, hlists⟩

theorem Lists.reserve_concat_full {l : List String} (h : p.Lists l.eraseDups)
    (hle : l.eraseDups.length ≤ maxSlots) (hfull : maxSlots < (l ++ [name]).eraseDups.length) :
    p.reserve name = (none, p) := by
  rw [eraseDups_concat] at hfull
  by_cases hm : name ∈ l
  · rw [if_pos hm] at hfull
    omega
  · rw [if_neg hm, List.length_append, List.length_singleton] at hfull
    exact h.reserve_of_full (fun h => hm (List.mem_eraseDups.mp h)) (Nat.lt_succ_iff.mp hfull)

end Pool

/-! ## The names reserved at places -/

/-- The pool that was attached to the node of a place. -/
def Place.pool? (facts : Annotations) (p : Place) : Option PoolId :=
  p.node?.bind fun n => facts.fetch .pool n.id

def Place.reserved? (p : Place) : Option String := p.node?.bind fun n => n.kind.naming.reserved?

namespace Slots

/-- The names reserved in a pool at these places, in order. -/
def reservedIn (facts : Annotations) (pool : PoolId) (ps : List Place) : List String :=
  (ps.filter fun p => p.pool? facts = some pool).filterMap Place.reserved?

/-- The different names in a pool after these places, where it began with those of `start`. -/
def namesIn (facts : Annotations) (start : PoolId → List String) (ps : List Place)
    (pool : PoolId) : List String :=
  (start pool ++ reservedIn facts pool ps).eraseDups

variable {facts : Annotations} {start : PoolId → List String} {ps : List Place} {p : Place}
  {pools : Pools} {pool : PoolId} {name : String}

theorem reservedIn_append (facts : Annotations) (pool : PoolId) (ps qs : List Place) :
    reservedIn facts pool (ps ++ qs) = reservedIn facts pool ps ++ reservedIn facts pool qs := by
  unfold reservedIn
  rw [List.filter_append, List.filterMap_append]

theorem reservedIn_singleton (hpool : p.pool? facts = some pool)
    (hname : p.reserved? = some name) : reservedIn facts pool [p] = [name] := by
  unfold reservedIn
  rw [List.filter_singleton, hpool, decide_eq_true rfl]
  simp only [cond_true, List.filterMap_cons, hname, List.filterMap_nil]

theorem reservedIn_singleton_of_ne {other : PoolId} (hpool : p.pool? facts = some pool)
    (hne : other ≠ pool) : reservedIn facts other [p] = [] := by
  unfold reservedIn
  rw [List.filter_singleton, hpool,
    decide_eq_false fun h => hne (Option.some.inj h).symm]
  rfl

theorem reservedIn_singleton_of_none (hname : p.reserved? = none) :
    reservedIn facts pool [p] = [] := by
  unfold reservedIn
  rw [List.filterMap_eq_nil_iff]
  intro q hq
  obtain rfl := List.mem_singleton.mp (List.mem_of_mem_filter hq)
  exact hname

/-- Each pool holds what was reserved in it at these places, and none is too full. -/
structure Tally (facts : Annotations) (start : PoolId → List String) (ps : List Place)
    (pools : Pools) : Prop where
  lists : ∀ pool p, pools.get? pool = some p → p.Lists (namesIn facts start ps pool)
  fits : ∀ pool p, pools.get? pool = some p → (namesIn facts start ps pool).length ≤ maxSlots

/-- The same pools are there. -/
def SameKeys (pools pools' : Pools) : Prop :=
  ∀ pool, (pools'.get? pool).isSome = (pools.get? pool).isSome

theorem Tally.skip (h : Tally facts start ps pools) (hname : p.reserved? = none) :
    Tally facts start (ps ++ [p]) pools := by
  have hnames : namesIn facts start (ps ++ [p]) = namesIn facts start ps := by
    funext pool
    unfold namesIn
    rw [reservedIn_append, reservedIn_singleton_of_none hname, List.append_nil]
  exact ⟨hnames ▸ h.lists, hnames ▸ h.fits⟩

/-- The name of one more place comes to its pool, -/
theorem namesIn_concat (hpool : p.pool? facts = some pool) (hname : p.reserved? = some name) :
    namesIn facts start (ps ++ [p]) pool =
      ((start pool ++ reservedIn facts pool ps) ++ [name]).eraseDups := by
  unfold namesIn
  rw [reservedIn_append, reservedIn_singleton hpool hname, List.append_assoc]

/-- and to no other. -/
theorem namesIn_concat_of_ne {other : PoolId} (hpool : p.pool? facts = some pool)
    (hne : other ≠ pool) :
    namesIn facts start (ps ++ [p]) other = namesIn facts start ps other := by
  unfold namesIn
  rw [reservedIn_append, reservedIn_singleton_of_ne hpool hne, List.append_nil]

theorem SameKeys.modify (pools : Pools) (pool : PoolId) (f : Pool → Pool) :
    SameKeys pools (pools.modify pool f) := by
  intro other
  rw [Arena.get?_modify]
  split
  · next heq => rw [heq, Option.isSome_map]
  · rfl

/-- Only the pool of one more place changes. -/
theorem Tally.modify (h : Tally facts start ps pools) (hpool : p.pool? facts = some pool) {q : Pool}
    (hlists : q.Lists (namesIn facts start (ps ++ [p]) pool))
    (hfits : (namesIn facts start (ps ++ [p]) pool).length ≤ maxSlots) :
    Tally facts start (ps ++ [p]) (pools.modify pool fun _ => q) := by
  have key : ∀ other r, (pools.modify pool fun _ => q).get? other = some r →
      (other = pool ∧ r = q) ∨ (other ≠ pool ∧ pools.get? other = some r) := by
    intro other r hr
    rw [Arena.get?_modify] at hr
    split at hr
    · next heq =>
      obtain ⟨-, -, rfl⟩ := Option.map_eq_some_iff.mp hr
      exact .inl ⟨heq, rfl⟩
    · next hne => exact .inr ⟨hne, hr⟩
  refine ⟨fun other r hr => ?_, fun other r hr => ?_⟩
  · rcases key other r hr with ⟨rfl, rfl⟩ | ⟨hne, hr⟩
    · exact hlists
    · rw [namesIn_concat_of_ne hpool hne]
      exact h.lists other r hr
  · rcases key other r hr with ⟨rfl, rfl⟩ | ⟨hne, hr⟩
    · exact hfits
    · rw [namesIn_concat_of_ne hpool hne]
      exact h.fits other r hr

/-- Reserving the name of one more place fails if its pool is full, and else keeps the tally. -/
theorem Tally.reserve (h : Tally facts start ps pools) (hpool : p.pool? facts = some pool)
    (hname : p.reserved? = some name) {q : Pool} (hq : pools.get? pool = some q) :
    (maxSlots < (namesIn facts start (ps ++ [p]) pool).length ∧
      (pools.reserve pool name).1 = none) ∨
    ∃ pools', pools.reserve pool name =
        (some ((namesIn facts start (ps ++ [p]) pool).idxOf name), pools') ∧
      Tally facts start (ps ++ [p]) pools' ∧ SameKeys pools pools' := by
  have hnames : namesIn facts start (ps ++ [p]) pool = _ := namesIn_concat hpool hname
  have hlists := h.lists pool q hq
  rw [Pools.reserve_eq_of_get? hq]
  by_cases hroom : (namesIn facts start (ps ++ [p]) pool).length ≤ maxSlots
  · obtain ⟨q', hreserve, hlists'⟩ := hlists.reserve_concat (hnames ▸ hroom)
    rw [hreserve, hnames]
    exact .inr ⟨pools.modify pool fun _ => q', rfl, h.modify hpool (hnames ▸ hlists') hroom,
      .modify pools pool _⟩
  · have hfull := Nat.lt_of_not_le hroom
    refine .inl ⟨hfull, ?_⟩
    rw [hlists.reserve_concat_full (h.fits pool q hq) (hnames ▸ hfull)]

/-- Names keep their numbers when more places follow. -/
theorem namesIn_prefix_append (facts : Annotations) (start : PoolId → List String)
    (ps qs : List Place) (pool : PoolId) :
    namesIn facts start ps pool <+: namesIn facts start (ps ++ qs) pool := by
  have happend := @List.eraseDups_append String _ _ (start pool ++ reservedIn facts pool ps)
    (reservedIn facts pool qs)
  unfold namesIn
  rw [reservedIn_append, ← List.append_assoc, happend]
  exact List.prefix_append _ _

theorem SameKeys.refl (pools : Pools) : SameKeys pools pools := fun _ => rfl

theorem SameKeys.trans {pools' pools'' : Pools} (h : SameKeys pools pools')
    (h' : SameKeys pools' pools'') : SameKeys pools pools'' := fun pool =>
  (h' pool).trans (h pool)

/-! ## Runs -/

/-- A place at which only want of room can stop a run. -/
def Ready (facts : Annotations) (pools : Pools) (p : Place) : Prop :=
  ∃ n pool, p.node? = some n ∧ facts.fetch .pool n.id = some pool ∧ n.kind.naming ≠ .unread ∧
    (pools.get? pool).isSome

theorem Ready.mono {pools' : Pools} (h : Ready facts pools p) (hsame : SameKeys pools pools') :
    Ready facts pools' p := by
  obtain ⟨n, pool, hn, hpool, hread, hreg⟩ := h
  exact ⟨n, pool, hn, hpool, hread, (hsame pool).trans hreg⟩

/-- The slot that is attached to the node of a place behind these places. -/
def slotAt? (facts : Annotations) (start : PoolId → List String) (before : List Place) (p : Place)
    (n : Node) (pool : PoolId) : Option Nat :=
  match n.kind.naming with
  | .declares name => some ((namesIn facts start (before ++ [p]) pool).idxOf name)
  | .reads name =>
    if p.above.any Spot.isType then none
    else if name ∈ namesIn facts start before pool then
      some ((namesIn facts start before pool).idxOf name)
    else none
  | _ => none

def Ledger.withSlot? (l : Ledger) (id : NodeId) (slot? : Option Nat) (pools : Pools) : Ledger where
  slots := slot?.elim l.slots (l.slots.insert id)
  frames := l.frames
  pools := pools

variable {source : Nat} {l : Ledger} {n : Node}

/-- A name that is reserved either finds no room or makes the pool's list longer. -/
theorem reserve_step (ht : Tally facts start ps l.pools) (hpool : p.pool? facts = some pool)
    (hname : p.reserved? = some name) (hreg : (l.pools.get? pool).isSome) (loc : Loc)
    (next : Nat → Walk Ledger Diagnostic) :
    (maxSlots < (namesIn facts start (ps ++ [p]) pool).length ∧
      Slots.reserve pool name loc next l = (.error { defect := .tooManyLocals name, loc }, l)) ∨
    ∃ pools', Tally facts start (ps ++ [p]) pools' ∧ SameKeys l.pools pools' ∧
      Slots.reserve pool name loc next l =
        next ((namesIn facts start (ps ++ [p]) pool).idxOf name) { l with pools := pools' } := by
  obtain ⟨q, hq⟩ := Option.isSome_iff_exists.mp hreg
  unfold Slots.reserve
  rcases ht.reserve hpool hname hq with ⟨hfull, hnone⟩ | ⟨pools', hsome, ht', hsame⟩
  · refine .inl ⟨hfull, ?_⟩
    rw [← Prod.eta (l.pools.reserve pool name), hnone]
    simp only [hq]
  · refine .inr ⟨pools', ht', hsame, ?_⟩
    simp only [hq, hsome]

/-- A name that is read has a slot if it is in the pool by then. -/
theorem Tally.read_eq (ht : Tally facts start ps l.pools) (hreg : (l.pools.get? pool).isSome)
    (name : String) (id : NodeId) : l.read pool name id =
      l.withSlot? id (if name ∈ namesIn facts start ps pool then
        some ((namesIn facts start ps pool).idxOf name) else none) l.pools := by
  obtain ⟨q, hq⟩ := Option.isSome_iff_exists.mp hreg
  have hlookup : (l.pools.get? pool).bind (·.lookup name) = _ :=
    (congrArg (·.bind (·.lookup name)) hq).trans ((ht.lists pool q hq).lookup_eq name)
  unfold Ledger.read
  rw [hlookup]
  by_cases hm : name ∈ namesIn facts start ps pool
  · simp only [if_pos hm]
    rfl
  · simp only [if_neg hm]
    rfl

/-- Entering a place that is ready. -/
theorem enter_step (source : Nat) (ht : Tally facts start ps l.pools) (hp : p.node? = some n)
    (hpool : facts.fetch .pool n.id = some pool) (hread : n.kind.naming ≠ .unread)
    (hreg : (l.pools.get? pool).isSome) :
    (maxSlots < (namesIn facts start (ps ++ [p]) pool).length ∧ ∃ name,
      p.reserved? = some name ∧
        enter source facts p l = (.error { defect := .tooManyLocals name, loc := n.loc }, l)) ∨
    ∃ pools', Tally facts start (ps ++ [p]) pools' ∧ SameKeys l.pools pools' ∧
      enter source facts p l =
        (.ok (), l.withSlot? n.id (slotAt? facts start ps p n pool) pools') := by
  have hplace : p.pool? facts = some pool := by
    unfold Place.pool?
    rw [hp]
    exact hpool
  have hreserved : p.reserved? = n.kind.naming.reserved? := by
    unfold Place.reserved?
    rw [hp]
    rfl
  rw [enter_of_some hp hpool]
  unfold enterNode slotAt?
  cases hnaming : n.kind.naming with
  | frame =>
    rw [hnaming] at hreserved
    rcases reserve_step ht hplace hreserved hreg n.loc fun _ => Walk.done with
      ⟨hfull, hrun⟩ | ⟨pools', ht', hsame, hrun⟩
    · exact .inl ⟨hfull, "this", hreserved, hrun⟩
    · exact .inr ⟨pools', ht', hsame, hrun⟩
  | declares name =>
    rw [hnaming] at hreserved
    rcases reserve_step ht hplace hreserved hreg n.loc
        fun slot => Walk.modify (·.withSlot n.id slot) with
      ⟨hfull, hrun⟩ | ⟨pools', ht', hsame, hrun⟩
    · exact .inl ⟨hfull, name, hreserved, hrun⟩
    · exact .inr ⟨pools', ht', hsame, hrun⟩
  | reads name =>
    rw [hnaming] at hreserved
    refine .inr ⟨l.pools, ht.skip hreserved, .refl _, ?_⟩
    show (Except.ok (), if _ then l else l.read pool name n.id) = _
    rw [ht.read_eq hreg]
    by_cases htype : p.above.any Spot.isType = true
    · simp only [htype, if_true]
      rfl
    · simp only [htype]
      rfl
  | type =>
    rw [hnaming] at hreserved
    exact .inr ⟨l.pools, ht.skip hreserved, .refl _, rfl⟩
  | unread => exact absurd hnaming hread
  | other =>
    rw [hnaming] at hreserved
    exact .inr ⟨l.pools, ht.skip hreserved, .refl _, rfl⟩

/-- The size of a frame is attached when the function is left. -/
theorem leave_frame (ht : Tally facts start ps l.pools) (hp : p.node? = some n)
    (hpool : facts.fetch .pool n.id = some pool) (hnaming : n.kind.naming = .frame)
    (hreg : (l.pools.get? pool).isSome) : leave facts p l =
      (.ok (), { l with
        frames := l.frames.insert n.id (namesIn facts start ps pool).length }) := by
  obtain ⟨q, hq⟩ := Option.isSome_iff_exists.mp hreg
  rw [leave_of_some hp hpool]
  simp only [leaveNode, hnaming, hq, (ht.lists pool q hq).size_eq]

theorem leave_of_ne (hp : p.node? = some n) (hnaming : n.kind.naming ≠ .frame) :
    leave facts p l = (.ok (), l) := by
  unfold leave leaveNode
  simp only [hp]

/--
A run either goes on to the end, keeping the tally, or stops where a name finds its pool full, with
what was done until then.
-/
theorem through_ends (source : Nat) {es : List Event} (ht : Tally facts start ps l.pools)
    (hready : ∀ p, .enter p ∈ es ∨ .leave p ∈ es → Ready facts l.pools p) :
    (∃ l', Walk.through (enter source facts) (leave facts) es l = (.ok (), l') ∧
      Tally facts start (ps ++ es.filterMap Event.entered?) l'.pools ∧
        SameKeys l.pools l'.pools) ∨
    ∃ es₁ p es₂ l', es = es₁ ++ .enter p :: es₂ ∧
      Walk.through (enter source facts) (leave facts) es₁ l = (.ok (), l') ∧
      Tally facts start (ps ++ es₁.filterMap Event.entered?) l'.pools ∧
        SameKeys l.pools l'.pools ∧
      ∃ n pool name, p.node? = some n ∧ facts.fetch .pool n.id = some pool ∧
        (l.pools.get? pool).isSome ∧ p.reserved? = some name ∧
        maxSlots < (namesIn facts start (ps ++ es₁.filterMap Event.entered? ++ [p]) pool).length ∧
        Walk.through (enter source facts) (leave facts) es l =
          (.error { defect := .tooManyLocals name, loc := n.loc }, l') := by
  induction es generalizing ps l with
  | nil =>
    rw [List.filterMap_nil, List.append_nil]
    exact .inl ⟨l, rfl, ht, .refl _⟩
  | cons e es ih =>
    have hrest : ∀ p, .enter p ∈ es ∨ .leave p ∈ es → Ready facts l.pools p := fun p hp =>
      hready p (hp.imp (List.mem_cons_of_mem _) (List.mem_cons_of_mem _))
    cases e with
    | enter p =>
      obtain ⟨n, pool, hp, hpool, hread, hreg⟩ := hready p (.inl List.mem_cons_self)
      have hentered : ∀ es : List Event, ps ++ (Event.enter p :: es).filterMap Event.entered? =
          (ps ++ [p]) ++ es.filterMap Event.entered? := fun es => List.append_cons ps p _
      rw [hentered, Walk.through]
      rcases enter_step source ht hp hpool hread hreg with
        ⟨hfull, name, hname, hrun⟩ | ⟨pools', ht', hsame, hrun⟩
      · refine .inr ⟨[], p, es, l, rfl, rfl, ?_, .refl _, n, pool, name, hp, hpool, hreg, hname, ?_,
          Walk.andThen_of_error hrun⟩
        · rwa [List.filterMap_nil, List.append_nil]
        · rwa [List.filterMap_nil, List.append_nil]
      · rw [Walk.andThen_of_ok hrun]
        rcases ih (l := l.withSlot? n.id (slotAt? facts start ps p n pool) pools') ht'
            fun q hq => (hrest q hq).mono hsame with
          ⟨l', hrun', ht'', hsame'⟩ |
            ⟨es₁, q, es₂, l', rfl, hrun₁, ht₁, hsame₁, m, other, name, hm, hother, hreg', hstop⟩
        · exact .inl ⟨l', hrun', ht'', hsame.trans hsame'⟩
        · refine .inr ⟨.enter p :: es₁, q, es₂, l', rfl, ?_, ?_, hsame.trans hsame₁, m, other, name,
            hm, hother, (hsame other) ▸ hreg', ?_⟩
          · rwa [Walk.through, Walk.andThen_of_ok hrun]
          · rwa [hentered]
          · rwa [hentered]
    | leave p =>
      obtain ⟨n, pool, hp, hpool, hread, hreg⟩ := hready p (.inr List.mem_cons_self)
      have hentered : ∀ es : List Event, (Event.leave p :: es).filterMap Event.entered? =
          es.filterMap Event.entered? := fun _ => rfl
      obtain ⟨frames, hrun⟩ : ∃ frames, leave facts p l = (.ok (), { l with frames }) := by
        by_cases hnaming : n.kind.naming = .frame
        · exact ⟨_, leave_frame ht hp hpool hnaming hreg⟩
        · exact ⟨l.frames, leave_of_ne hp hnaming⟩
      rw [hentered, Walk.through, Walk.andThen_of_ok hrun]
      rcases ih (l := { l with frames }) ht hrest with
        hdone | ⟨es₁, q, es₂, l', rfl, hrun₁, hstop⟩
      · exact .inl hdone
      · refine .inr ⟨.leave p :: es₁, q, es₂, l', rfl, ?_, hstop⟩
        rwa [Walk.through, Walk.andThen_of_ok hrun]

/-- A run either goes on to the end, keeping the tally, or meets a pool that is full. -/
theorem through_cases (source : Nat) {es : List Event} (ht : Tally facts start ps l.pools)
    (hready : ∀ p, .enter p ∈ es ∨ .leave p ∈ es → Ready facts l.pools p) :
    (∃ l', Walk.through (enter source facts) (leave facts) es l = (.ok (), l') ∧
      Tally facts start (ps ++ es.filterMap Event.entered?) l'.pools ∧
        SameKeys l.pools l'.pools) ∨
    (∃ d l', Walk.through (enter source facts) (leave facts) es l = (.error d, l')) ∧
      ∃ pool, (l.pools.get? pool).isSome ∧
        maxSlots < (namesIn facts start (ps ++ es.filterMap Event.entered?) pool).length := by
  rcases through_ends source ht hready with hdone |
    ⟨es₁, p, es₂, l', rfl, -, -, -, n, pool, name, -, -, hreg, -, hfull, hrun⟩
  · exact .inl hdone
  · refine .inr ⟨⟨_, l', hrun⟩, pool, hreg, ?_⟩
    have hentered : ps ++ (es₁ ++ .enter p :: es₂).filterMap Event.entered? =
        (ps ++ es₁.filterMap Event.entered? ++ [p]) ++ es₂.filterMap Event.entered? := by
      rw [List.filterMap_append, ← List.append_assoc]
      exact List.append_cons _ p _
    rw [hentered]
    exact Nat.lt_of_lt_of_le hfull (namesIn_prefix_append _ _ _ _ _).length_le

end Slots

end FlatScope
