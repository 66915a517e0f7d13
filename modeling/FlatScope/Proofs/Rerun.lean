import FlatScope.Proofs.Agreement
import FlatScope.Proofs.Labels

/-!
# Running again

Resolving and numbering a tree again gives it new pools and the same slots, frames and dump
(`traverse_renews`), whatever the storage and the pools held before: the second run reads nothing
of the first, and a dump shows of the pools only which nodes share one.
-/

namespace FlatScope

namespace Slots

variable {ast : Ast} {root : NodeId} {facts : Annotations} {pools : Pools} {p : Place} {n : Node}
  {pool other : PoolId} {poolOf : List Nat → PoolId}

/-! ## What numbering leaves alone -/

theorem get?_reserve {pools' : Pools} {name : String} {slot : Nat}
    (h : pools.reserve pool name = (some slot, pools')) (hne : other ≠ pool) :
    pools'.get? other = pools.get? other := by
  obtain ⟨a, b, -, -, rfl⟩ := Pools.reserve_eq_some h
  rw [Arena.get?_modify, if_neg hne]

theorem get?_reserve_frame {next : Nat → Walk Ledger Diagnostic}
    (hnext : ∀ slot l, (next slot l).2.pools = l.pools) (hne : other ≠ pool) (name : String)
    (loc : Loc) (l : Ledger) :
    (reserve pool name loc next l).2.pools.get? other = l.pools.get? other := by
  unfold reserve
  split
  · rfl
  · split
    · rfl
    · next slot pools hsome => rw [hnext, get?_reserve hsome hne]

/-- Coming to a place changes no pool but its own, -/
theorem get?_pools_enter (source : Nat)
    (hne : ∀ n, p.node? = some n → facts.fetch .pool n.id ≠ some other) (l : Ledger) :
    (enter source facts p l).2.pools.get? other = l.pools.get? other := by
  cases hp : p.node? with
  | none =>
    unfold enter
    rw [hp]
    rfl
  | some n =>
    cases hpool : facts.fetch .pool n.id with
    | none =>
      rw [enter_of_none hp hpool]
      rfl
    | some pool =>
      have hne : other ≠ pool := fun heq => hne n hp (heq ▸ hpool)
      rw [enter_of_some hp hpool]
      unfold enterNode
      cases n.kind.naming with
      | frame | declares name => exact get?_reserve_frame (fun _ _ => rfl) hne _ _ l
      | reads name =>
        show (if _ then l else l.read pool name n.id).pools.get? other = _
        split
        · rfl
        · unfold Ledger.read
          split <;> rfl
      | type | unread | other => rfl

/-- and leaving it none at all. -/
theorem pools_leave (facts : Annotations) (p : Place) (l : Ledger) :
    (leave facts p l).2.pools = l.pools := by
  rcases leave_cases facts p with hdone | ⟨n, pool, -, hleave⟩
  · rw [hdone]
    rfl
  · rw [hleave]
    unfold leaveNode
    split
    · split <;> rfl
    · rfl

/-- Numbering a tree changes only the pools of its places. -/
theorem get?_pools_traverse (ho : ast.Unfolds (ast.outline root))
    (hne : ∀ p ∈ ast.places root, ∀ n, p.node? = some n →
      facts.fetch .pool n.id ≠ some other) :
    (traverse ast root { facts, pools }).2.pools.get? other = pools.get? other := by
  rw [traverse_eq ho]
  exact Walk.through_frame (fun l : Ledger => l.pools.get? other)
    (fun p hp => get?_pools_enter ast.source (hne p (Outline.mem_places.mpr hp)))
    (fun p _ l => congrArg (Arena.get? · other) (pools_leave facts p l)) _

/-- A tree that was numbered has a pool at every node. -/
theorem exists_pool_of_traverse (hi : ast.Intact root) {s : State}
    (hrun : traverse ast root { facts, pools } = (.ok (), s)) (hp : p ∈ ast.places root)
    (hn : p.node? = some n) : ∃ pool, facts.fetch .pool n.id = some pool := by
  obtain ⟨l, hrun, -⟩ := exists_ledger hi.acyclic.unfolds_outline hrun
  have hentered : .enter p ∈ ast.events root := Outline.mem_places.mp hp
  obtain ⟨es, es', hes⟩ := List.append_of_mem hentered
  rw [hes] at hrun
  obtain ⟨l', -, hrest⟩ := Walk.exists_of_through_append hrun
  cases hpool : facts.fetch .pool n.id with
  | some pool => exact ⟨pool, rfl⟩
  | none =>
    have hfail : enter ast.source facts p l' =
        (.error { defect := .unresolved n.kind.name, loc := n.loc }, l') := by
      rw [enter_of_none hn hpool]
      rfl
    rw [Walk.through, Walk.andThen_of_error hfail] at hrest
    cases hrest

/-! ## The second run -/

/-- What a second run makes of the annotations and the pools of a first. -/
structure Renewed (ast : Ast) (root : NodeId) (s s' : State) : Prop where
  /-- every node has another pool than any from before, -/
  fresh : ∀ p ∈ ast.places root, ∀ n, p.node? = some n →
    ∃ pool, s'.facts.fetch .pool n.id = some pool ∧ s.pools.get? pool = none
  /-- and shares it with the same nodes; -/
  shared_iff : ∀ p ∈ ast.places root, ∀ q ∈ ast.places root, ∀ n m, p.node? = some n →
    q.node? = some m → (s'.facts.fetch .pool n.id = s'.facts.fetch .pool m.id ↔
      s.facts.fetch .pool n.id = s.facts.fetch .pool m.id)
  /-- as many nodes have a pool as before, whether or not they are in the tree; -/
  count_eq : s'.facts.count .pool = s.facts.count .pool
  /-- the slots and the frames are the same, and so are the other tables, -/
  table_eq : ∀ f, f ≠ .pool → s'.facts.table f = s.facts.table f
  /-- the pools from before, -/
  kept : ∀ pool p, s.pools.get? pool = some p → s'.pools.get? pool = some p
  /-- and the dump -/
  dump_eq : ∀ colour, ast.dump s'.facts colour root = ast.dump s.facts colour root

/-- A dump shows no more of the pools than what is the same in both runs. -/
theorem dump_congr {facts' : Annotations}
    (hpool : ∀ p ∈ ast.places root, ∀ n, p.node? = some n → (facts.fetch .pool n.id).isSome)
    (hpool' : ∀ p ∈ ast.places root, ∀ n, p.node? = some n → (facts'.fetch .pool n.id).isSome)
    (hshared : ∀ p ∈ ast.places root, ∀ q ∈ ast.places root, ∀ n m, p.node? = some n →
      q.node? = some m → (facts'.fetch .pool n.id = facts'.fetch .pool m.id ↔
        facts.fetch .pool n.id = facts.fetch .pool m.id))
    (hslots : facts'.slots = facts.slots) (colour : Bool) :
    ast.dump facts' colour root = ast.dump facts colour root := by
  have hplace : ∀ n ∈ (ast.outline root).nodes, ∃ p ∈ ast.places root, p.node? = some n :=
    fun n hn => Ast.mem_nodes_outline.mp hn
  have hlines : Dump.lines facts' (ast.outline root) = Dump.lines facts (ast.outline root) := by
    refine Dump.lines_congr (fun n hn => ?_) (fun n hn m hm => ?_) fun n hn => ?_
    · obtain ⟨p, hp, hpn⟩ := hplace n hn
      rw [hpool p hp n hpn, hpool' p hp n hpn]
    · obtain ⟨p, hp, hpn⟩ := hplace n hn
      obtain ⟨q, hq, hqm⟩ := hplace m hm
      exact hshared p hp q hq n m hpn hqm
    · exact congrArg (SideTable.fetch · n.id) hslots
  rw [Ast.dump_eq, Ast.dump_eq, hlines]

/-- Where numbering succeeded resolving had found no later node in the way. -/
theorem not_outdates_of_traverse (h : ast.Intact root) (hn : ast.get? root = some n)
    (hopens : n.kind.opensScope = true) {r : Resolve.State} {s : State}
    (hresolve : Resolve.traverse ast root { facts, pools } = (.ok (), r))
    (hrun : traverse ast root { facts := r.facts, pools := r.pools } = (.ok (), s)) :
    ∀ p ∈ ast.places root, ∀ n, p.node? = some n → ¬ facts.pools.Outdates n.id := by
  intro p hp m hm hout
  obtain ⟨r', _, hresolve', hv⟩ := Resolve.traverse_of_sound facts pools hn hopens
    h.acyclic.unfolds_outline fun p hp => h.sound hp
  obtain ⟨-, rfl⟩ := Prod.mk.inj (hresolve.symm.trans hresolve')
  obtain ⟨pool, hpool⟩ := exists_pool_of_traverse h hrun hp hm
  cases hpool.symm.trans (hv.outdated p hp m hm hout)

/-- A tree that has just been resolved is numbered in new pools. -/
theorem kept_of_visited (h : ast.Intact root) {r : Resolve.State}
    (hv : Resolve.Visited ast (ast.places root) { facts, pools } r poolOf)
    (hhoused : Housed ast root r.facts poolOf) {a : Pool} (ha : pools.get? pool = some a) :
    (traverse ast root { facts := r.facts, pools := r.pools }).2.pools.get? pool = some a := by
  rw [get?_pools_traverse h.acyclic.unfolds_outline fun p hp n hn heq => ?_]
  · exact hv.kept pool a ha
  · obtain rfl := Option.some.inj ((hhoused.fetch_pool hp hn).symm.trans heq)
    cases (exists_blank h hv hp).1.symm.trans ha

/-- Of the pools of nodes only that they are new matters. -/
theorem Renewed.of_housed {s s' : State} {poolOf' : List Nat → PoolId}
    (h : Housed ast root s.facts poolOf) (h' : Housed ast root s'.facts poolOf')
    (hfresh : ∀ p ∈ ast.places root, s.pools.get? (poolOf' p.path) = none)
    (hcount : s'.facts.count .pool = s.facts.count .pool)
    (htable : ∀ f, f ≠ .pool → s'.facts.table f = s.facts.table f)
    (hkept : ∀ pool p, s.pools.get? pool = some p → s'.pools.get? pool = some p) :
    Renewed ast root s s' := by
  have hshared : ∀ p ∈ ast.places root, ∀ q ∈ ast.places root, ∀ n m, p.node? = some n →
      q.node? = some m → (s'.facts.fetch .pool n.id = s'.facts.fetch .pool m.id ↔
        s.facts.fetch .pool n.id = s.facts.fetch .pool m.id) :=
    fun p hp q hq n m hn hm => h.shared_iff h' hp hq hn hm
  refine ⟨fun p hp n hn => ⟨_, h'.fetch_pool hp hn, hfresh p hp⟩, hshared, hcount, htable, hkept,
    dump_congr (fun p hp n hn => ?_) (fun p hp n hn => ?_) hshared (htable .slot (by decide))⟩
  · exact Option.isSome_iff_exists.mpr ⟨_, h.fetch_pool hp hn⟩
  · exact Option.isSome_iff_exists.mpr ⟨_, h'.fetch_pool hp hn⟩

/--
If resolving and numbering an intact unit succeeds, doing both again succeeds, and renews the pools
of its nodes and nothing else.
-/
theorem traverse_renews {classes : List NodeId} (h : ast.Intact root)
    (hn : ast.get? root = some n) (hk : n.kind = .compUnit classes) {r : Resolve.State} {s : State}
    (hresolve : Resolve.traverse ast root { facts, pools } = (.ok (), r))
    (hrun : traverse ast root { facts := r.facts, pools := r.pools } = (.ok (), s)) :
    ∃ r' s', Resolve.traverse ast root { facts := s.facts, pools := s.pools } = (.ok (), r') ∧
      traverse ast root { facts := r'.facts, pools := r'.pools } = (.ok (), s') ∧
      Renewed ast root s s' := by
  have hopens : n.kind.opensScope = true := by rw [hk]; rfl
  obtain ⟨rec₁, hresolve₁, -, hv₁, hhoused₁⟩ := exists_housed h hn hopens facts pools
    (not_outdates_of_traverse h hn hopens hresolve hrun)
  obtain ⟨-, rfl⟩ := Prod.mk.inj (hresolve.symm.trans hresolve₁)
  obtain ⟨l, -, rfl⟩ := exists_ledger h.acyclic.unfolds_outline hrun
  have hhoused := hhoused₁.state l
  obtain ⟨rec₂, hresolve₂, hmet₂, hv₂, hhoused₂⟩ := exists_housed h hn hopens
    (l.state (rec₁.state facts []).facts []).facts l.pools
    fun p hp n hn => SideTable.not_outdates_of_fetch (hhoused.fetch_pool hp hn)
  obtain ⟨result, m, m', slots, frames, hrun₁, hrun₂, hslots, hm, hm', hframes, hf, hf'⟩ :=
    traverse_alike hhoused₁ hhoused₂ h (.of_visited h hv₁ hv₂)
  obtain ⟨rfl, hstate⟩ := Prod.mk.inj (hrun₁.symm.trans hrun)
  -- what is written the second time is there already
  have hslots' : m'.slots = l.slots := by
    have hfirst : l.slots = (rec₁.state facts []).facts.slots.insertAll slots :=
      (congrArg (·.facts.slots) hstate).symm.trans hm
    exact hm'.trans (SideTable.insertAll_again hfirst hslots.nodup)
  have hframes' : m'.frames = l.frames := by
    have hfirst : l.frames = (rec₁.state facts []).facts.frames.insertAll frames :=
      (congrArg (·.facts.frames) hstate).symm.trans hf
    exact hf'.trans (SideTable.insertAll_again hfirst hframes.nodup)
  refine ⟨_, _, hresolve₂, hrun₂, .of_housed hhoused (hhoused₂.state m')
    (fun p hp => (exists_blank h hv₂ hp).1) ?_ (fun f hf => ?_) fun pool a ha => ?_⟩
  · show rec₂.table.count = rec₁.table.count
    rw [hmet₂.table_eq]
    refine SideTable.count_insertAll fun entry hentry => ?_
    obtain ⟨p, hp, n, hn, rfl⟩ := Resolve.mem_attached.mp hentry
    exact Option.isSome_iff_exists.mpr ⟨_, hhoused.fetch_pool hp hn⟩
  · cases f with
    | pool => exact absurd rfl hf
    | slot => exact hslots'
    | frame => exact hframes'
    | number | text => rfl
  · have hkept := kept_of_visited h hv₂ hhoused₂ ha
    rwa [hrun₂] at hkept

/-- A function that declares one name, resolved and numbered twice. -/
theorem traverse_renews_function : ∃ (ast : Ast) (root : NodeId) (r : Resolve.State) (s : State),
    ast.Intact root ∧
    Resolve.traverse ast root { facts := .empty, pools := .empty } = (.ok (), r) ∧
    traverse ast root { facts := r.facts, pools := r.pools } = (.ok (), s) ∧
    s.facts.fetch .slot (.at 4 1) = some 1 ∧
    ∃ r' s', Resolve.traverse ast root { facts := s.facts, pools := s.pools } = (.ok (), r') ∧
      traverse ast root { facts := r'.facts, pools := r'.pools } = (.ok (), s') ∧
      Renewed ast root s s' := by
  let ast := ((((((Ast.empty 0).add (.type .void) ⟨0, 0, 4⟩).2.add (.params []) ⟨0, 6, 8⟩).2.add
    (.type .int) ⟨0, 11, 14⟩).2.add (.declaration (.at 3 1) "x") ⟨0, 11, 17⟩).2.add
    (.function (.at 1 1) "f" (.at 2 1) (.at 4 1)) ⟨0, 0, 19⟩).2.add (.compUnit [.at 5 1])
    ⟨0, 0, 19⟩ |>.2
  have hacyclic : ast.Acyclic (.at 6 1) :=
    (((((((Ast.rising_empty 0).add (by decide)).add (by decide)).add (by decide)).add
      (by decide)).add (by decide)).add (by decide)).acyclic _
  have hintact := hacyclic.intact (by decide +kernel) (by decide +kernel)
  let r := (Resolve.traverse ast (.at 6 1) { facts := .empty, pools := .empty }).2
  have hresolve : (Resolve.traverse ast (.at 6 1) { facts := .empty, pools := .empty }).1 =
      .ok () := by decide +kernel
  have hrun : (traverse ast (.at 6 1) { facts := r.facts, pools := r.pools }).1 = .ok () := by
    decide +kernel
  have hslot : ((traverse ast (.at 6 1) { facts := r.facts, pools := r.pools }).2.facts.fetch
      .slot (.at 4 1) : Option Nat) = some 1 := by decide +kernel
  exact ⟨ast, .at 6 1, r, _, hintact, Walk.eq_of_fst hresolve, Walk.eq_of_fst hrun, hslot,
    traverse_renews hintact rfl rfl (Walk.eq_of_fst hresolve) (Walk.eq_of_fst hrun)⟩

end Slots

end FlatScope
