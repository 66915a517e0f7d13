import FlatScope.Proofs.Frames

/-!
# Runs that agree

Of what is attached to a tree numbering reads only which places share a pool, and of the pools only
the names in them. So two runs over one tree, in pools that hold the same names at every place
(`SameNames`), end in the same way and write the same slots and frames (`through_alike`), whatever
else there was before.
-/

namespace FlatScope

/-- The place that is left. -/
def Event.left? : Event → Option Place
  | .enter _ => none
  | .leave p => some p

namespace Slots

variable {ast : Ast} {root : NodeId} {facts facts' : Annotations} {pools pools' : Pools}
  {poolOf poolOf' : List Nat → PoolId} {p q : Place} {n : Node} {name : String}

/-! ## The pools of places -/

/-- Every place below the top has the pool of its nearest scope, and no two scopes have the same. -/
structure Housed (ast : Ast) (root : NodeId) (facts : Annotations) (poolOf : List Nat → PoolId) :
    Prop where
  pool?_eq : ∀ p ∈ ast.places root, p.pool? facts = some (poolOf p.path)
  nearest : ∀ p ∈ ast.places root, ∃ q ∈ ast.places root, q.opens = true ∧
    p.scope? = some q.path ∧ poolOf p.path = poolOf q.path
  distinct : ∀ p ∈ ast.places root, ∀ q ∈ ast.places root, p.opens = true → q.opens = true →
    poolOf p.path = poolOf q.path → p = q

theorem Housed.fetch_pool (h : Housed ast root facts poolOf) (hp : p ∈ ast.places root)
    (hn : p.node? = some n) : facts.fetch .pool n.id = some (poolOf p.path) := by
  have hpool := h.pool?_eq p hp
  unfold Place.pool? at hpool
  rwa [hn] at hpool

/-- Places share a pool if they share the nearest scope, and only then. -/
theorem Housed.poolOf_eq_iff (h : Housed ast root facts poolOf) (hp : p ∈ ast.places root)
    (hq : q ∈ ast.places root) : poolOf p.path = poolOf q.path ↔ p.scope? = q.scope? := by
  obtain ⟨top, htop, hopens, hs, hpool⟩ := h.nearest p hp
  obtain ⟨top', htop', hopens', hs', hpool'⟩ := h.nearest q hq
  rw [hpool, hpool', hs, hs', Option.some.injEq]
  constructor
  · exact fun heq => congrArg Place.path (h.distinct top htop top' htop' hopens hopens' heq)
  · exact fun heq => congrArg poolOf heq

/-- Resolving an intact tree houses it, unless the table knows a later node at some index. -/
theorem Housed.of_visited {s s' : Resolve.State} (h : ast.Intact root)
    (hv : Resolve.Visited ast (ast.places root) s s' poolOf)
    (hnew : ∀ p ∈ ast.places root, ∀ n, p.node? = some n → ¬ s.facts.pools.Outdates n.id) :
    Housed ast root s'.facts poolOf := by
  refine ⟨fun p hp => ?_, fun p hp => ?_, hv.distinct⟩
  · obtain ⟨n, hn, -⟩ := h.sound hp
    obtain ⟨q, hq, hid, -, hfetch⟩ := hv.given p hp n hn (hnew p hp n hn)
    have hids := hid.trans (h.acyclic.unfolds_outline.get?_of_node? hp hn).1
    obtain rfl := h.eq_of_id_eq hq hp hids
    unfold Place.pool?
    rw [hn]
    exact hfetch
  · obtain ⟨n, hn, -⟩ := h.sound hp
    exact hv.nearest p hp n hn

theorem exists_housed (h : ast.Intact root) (hn : ast.get? root = some n)
    (hopens : n.kind.opensScope = true) (facts : Annotations) (pools : Pools)
    (hnew : ∀ p ∈ ast.places root, ∀ n, p.node? = some n → ¬ facts.pools.Outdates n.id) :
    ∃ r, Resolve.traverse ast root { facts, pools } = (.ok (), Resolve.Record.state facts [] r) ∧
      Resolve.Met (ast.places root) ⟨facts.pools, pools, fun _ => .null⟩ r ∧
      Resolve.Visited ast (ast.places root) { facts, pools } (r.state facts []) r.poolOf ∧
      Housed ast root (r.state facts []).facts r.poolOf := by
  have ho := h.acyclic.unfolds_outline
  obtain ⟨r, hrun, hmet⟩ := Resolve.exists_met facts pools hn hopens ho fun p hp => h.sound hp
  have hv := Resolve.Visited.of_met hn hopens ho (List.append_nil _).symm hmet
  exact ⟨r, hrun, hmet, hv, .of_visited h hv hnew⟩

/-- Numbering leaves the pools of places as they are. -/
theorem Housed.state (h : Housed ast root facts poolOf) (l : Ledger) :
    Housed ast root (l.state facts []).facts poolOf := ⟨h.pool?_eq, h.nearest, h.distinct⟩

/-- Two storages in which the tree is housed tell the same nodes to share a pool. -/
theorem Housed.shared_iff (h : Housed ast root facts poolOf) (h' : Housed ast root facts' poolOf')
    (hp : p ∈ ast.places root) (hq : q ∈ ast.places root) (hn : p.node? = some n) {m : Node}
    (hm : q.node? = some m) : facts'.fetch .pool n.id = facts'.fetch .pool m.id ↔
      facts.fetch .pool n.id = facts.fetch .pool m.id := by
  rw [h.fetch_pool hp hn, h.fetch_pool hq hm, h'.fetch_pool hp hn, h'.fetch_pool hq hm,
    Option.some.injEq, Option.some.injEq, h.poolOf_eq_iff hp hq, h'.poolOf_eq_iff hp hq]

/-- At every place there are the same names in the pools of both runs. -/
def SameNames (ast : Ast) (root : NodeId) (poolOf poolOf' : List Nat → PoolId)
    (pools pools' : Pools) : Prop :=
  ∀ p ∈ ast.places root, ∃ a b, pools.get? (poolOf p.path) = some a ∧
    pools'.get? (poolOf' p.path) = some b ∧ a.Agrees b

/-- The pool of a place that has just been resolved is new and without names. -/
theorem exists_blank {s s' : Resolve.State} (h : ast.Intact root)
    (hv : Resolve.Visited ast (ast.places root) s s' poolOf) (hp : p ∈ ast.places root) :
    s.pools.get? (poolOf p.path) = none ∧
      ∃ a, s'.pools.get? (poolOf p.path) = some a ∧ a.slots = {} ∧ a.nextSlot = 0 := by
  obtain ⟨n, hn, -⟩ := h.sound hp
  obtain ⟨q, hq, hopens, -, hpool⟩ := hv.nearest p hp n hn
  obtain ⟨m, hm, -⟩ := h.sound hq
  rw [Place.opens_eq hm, NodeKind.opensScope_eq] at hopens
  obtain ⟨kind, hkind⟩ := Option.isSome_iff_exists.mp hopens
  obtain ⟨hnone, hsome⟩ := hv.opened q hq m kind hm hkind
  rw [hpool]
  exact ⟨hnone, _, hsome, rfl, rfl⟩

theorem SameNames.of_visited {s s' t t' : Resolve.State} (h : ast.Intact root)
    (hv : Resolve.Visited ast (ast.places root) s s' poolOf)
    (hv' : Resolve.Visited ast (ast.places root) t t' poolOf') :
    SameNames ast root poolOf poolOf' s'.pools t'.pools := by
  intro p hp
  obtain ⟨-, a, ha, hslots, hnext⟩ := exists_blank h hv hp
  obtain ⟨-, b, hb, hslots', hnext'⟩ := exists_blank h hv' hp
  exact ⟨a, b, ha, hb, hslots'.trans hslots.symm, hnext'.trans hnext.symm⟩


section

variable (h : Housed ast root facts poolOf) (h' : Housed ast root facts' poolOf')
include h h'

/-- Changing the pools of one place in the same way keeps the names the same everywhere. -/
theorem SameNames.modify (hsame : SameNames ast root poolOf poolOf' pools pools')
    (hp : p ∈ ast.places root) {a b : Pool} (hab : a.Agrees b) :
    SameNames ast root poolOf poolOf' (pools.modify (poolOf p.path) fun _ => a)
      (pools'.modify (poolOf' p.path) fun _ => b) := by
  intro q hq
  obtain ⟨c, d, hc, hd, hcd⟩ := hsame q hq
  rw [Arena.get?_modify, Arena.get?_modify]
  by_cases hscope : q.scope? = p.scope?
  · have heq := (h.poolOf_eq_iff hq hp).mpr hscope
    have heq' := (h'.poolOf_eq_iff hq hp).mpr hscope
    rw [if_pos heq, if_pos heq', ← heq, ← heq', hc, hd]
    exact ⟨a, b, rfl, rfl, hab⟩
  · rw [if_neg fun heq => hscope ((h.poolOf_eq_iff hq hp).mp heq),
      if_neg fun heq => hscope ((h'.poolOf_eq_iff hq hp).mp heq)]
    exact ⟨c, d, hc, hd, hcd⟩

theorem SameNames.reserve (hsame : SameNames ast root poolOf poolOf' pools pools')
    (hp : p ∈ ast.places root) (name : String) :
    ∃ slot? new new', pools.reserve (poolOf p.path) name = (slot?, new) ∧
      pools'.reserve (poolOf' p.path) name = (slot?, new') ∧
      SameNames ast root poolOf poolOf' new new' := by
  obtain ⟨a, b, ha, hb, hab⟩ := hsame p hp
  obtain ⟨hslot, hreserve⟩ := hab.reserve name
  rw [Pools.reserve_eq_of_get? ha, Pools.reserve_eq_of_get? hb, hslot]
  exact ⟨_, _, _, rfl, rfl, hsame.modify h h' hp hreserve⟩

end

/-! ## Steps that agree -/

/-- Two tables get the same values, at some of these nodes in this order. -/
def Writes (ids : List NodeId) (t u t' u' : SideTable .node Nat) : Prop :=
  ∃ entries : List (NodeId × Nat), (entries.map Prod.fst).Sublist ids ∧
    u = t.insertAll entries ∧ u' = t'.insertAll entries

theorem Writes.none (ids : List NodeId) (t t' : SideTable .node Nat) : Writes ids t t t' t' :=
  ⟨[], List.nil_sublist ids, rfl, rfl⟩

theorem Writes.one (id : NodeId) (value : Nat) (t t' : SideTable .node Nat) :
    Writes [id] t (t.insert id value) t' (t'.insert id value) :=
  ⟨[(id, value)], List.Sublist.refl [id], rfl, rfl⟩

theorem Writes.mono {ids ids' : List NodeId} {t u t' u' : SideTable .node Nat}
    (h : Writes ids t u t' u') (hsub : ids.Sublist ids') : Writes ids' t u t' u' := by
  obtain ⟨entries, hids, hu, hu'⟩ := h
  exact ⟨entries, hids.trans hsub, hu, hu'⟩

theorem Writes.append {ids ids' : List NodeId} {t u v t' u' v' : SideTable .node Nat}
    (h : Writes ids t u t' u') (h' : Writes ids' u v u' v') : Writes (ids ++ ids') t v t' v' := by
  obtain ⟨entries, hids, rfl, rfl⟩ := h
  obtain ⟨entries', hids', rfl, rfl⟩ := h'
  refine ⟨entries ++ entries', ?_, (t.insertAll_append _ _).symm, (t'.insertAll_append _ _).symm⟩
  rw [List.map_append]
  exact hids.append hids'

theorem Ledger.read_of_get? {l : Ledger} {pool : PoolId} {a : Pool}
    (ha : l.pools.get? pool = some a) (name : String) (id : NodeId) :
    l.read pool name id = (a.lookup name).elim l (l.withSlot id) := by
  unfold Ledger.read
  rw [ha, Option.bind_some]
  cases a.lookup name <;> rfl

/--
From pools that are the same in this sense both walks have the same result, write the same slots and
frames at these nodes, and leave such pools.
-/
def Alike (same : Pools → Pools → Prop) (slotted framed : List NodeId)
    (v w : Walk Ledger Diagnostic) : Prop :=
  ∀ l l', same l.pools l'.pools → ∃ result m m', v l = (result, m) ∧ w l' = (result, m') ∧
    same m.pools m'.pools ∧ Writes slotted l.slots m.slots l'.slots m'.slots ∧
      Writes framed l.frames m.frames l'.frames m'.frames

section

variable {same : Pools → Pools → Prop} {slotted framed : List NodeId}

theorem alike_done (same : Pools → Pools → Prop) (slotted framed : List NodeId) :
    Alike same slotted framed Walk.done Walk.done :=
  fun l l' hsame => ⟨_, l, l', rfl, rfl, hsame, .none _ _ _, .none _ _ _⟩

theorem alike_fail (same : Pools → Pools → Prop) (slotted framed : List NodeId) (d : Diagnostic) :
    Alike same slotted framed (Walk.fail d) (Walk.fail d) :=
  fun l l' hsame => ⟨_, l, l', rfl, rfl, hsame, .none _ _ _, .none _ _ _⟩

theorem Alike.andThen {slotted' framed' : List NodeId} {v v' w w' : Walk Ledger Diagnostic}
    (hv : Alike same slotted framed v v') (hw : Alike same slotted' framed' w w') :
    Alike same (slotted ++ slotted') (framed ++ framed') (v.andThen w) (v'.andThen w') := by
  intro l l' hsame
  obtain ⟨result, m, m', hm, hm', hsame, hslots, hframes⟩ := hv l l' hsame
  cases result with
  | error e =>
    exact ⟨_, m, m', Walk.andThen_of_error hm, Walk.andThen_of_error hm', hsame,
      hslots.mono (List.sublist_append_left _ _), hframes.mono (List.sublist_append_left _ _)⟩
  | ok =>
    obtain ⟨result, k, k', hk, hk', hsame, hslots', hframes'⟩ := hw m m' hsame
    exact ⟨result, k, k', (Walk.andThen_of_ok hm).trans hk, (Walk.andThen_of_ok hm').trans hk',
      hsame, hslots.append hslots', hframes.append hframes'⟩

end

section

variable (h : Housed ast root facts poolOf) (h' : Housed ast root facts' poolOf')
include h h'

theorem alike_reserve (hp : p ∈ ast.places root) (name : String) (loc : Loc)
    {slotted framed : List NodeId} {next : Nat → Walk Ledger Diagnostic}
    (hnext : ∀ slot, Alike (SameNames ast root poolOf poolOf') slotted framed (next slot)
      (next slot)) :
    Alike (SameNames ast root poolOf poolOf') slotted framed
      (reserve (poolOf p.path) name loc next) (reserve (poolOf' p.path) name loc next) := by
  intro l l' hsame
  obtain ⟨a, b, ha, hb, -⟩ := hsame p hp
  unfold reserve
  simp only [ha, hb]
  obtain ⟨slot?, new, new', hreserve, hreserve', hnew⟩ := hsame.reserve h h' hp name
  simp only [hreserve, hreserve']
  cases slot? with
  | none => exact ⟨_, l, l', rfl, rfl, hsame, .none _ _ _, .none _ _ _⟩
  | some slot => exact hnext slot { l with pools := new } { l' with pools := new' } hnew

/-- Coming to a place, -/
theorem alike_enter (source : Nat) (hp : p ∈ ast.places root) (hn : p.node? = some n) :
    Alike (SameNames ast root poolOf poolOf') [n.id] [] (enter source facts p)
      (enter source facts' p) := by
  rw [enter_of_some hn (h.fetch_pool hp hn), enter_of_some hn (h'.fetch_pool hp hn)]
  unfold enterNode
  cases n.kind.naming with
  | frame => exact alike_reserve h h' hp _ _ fun _ => alike_done _ _ _
  | declares name =>
    exact alike_reserve h h' hp _ _ fun slot l l' hsame =>
      ⟨_, _, _, rfl, rfl, hsame, .one n.id slot _ _, .none _ _ _⟩
  | reads name =>
    intro l l' hsame
    cases p.above.any Spot.isType with
    | true => exact ⟨_, l, l', rfl, rfl, hsame, .none _ _ _, .none _ _ _⟩
    | false =>
      obtain ⟨a, b, ha, hb, hab⟩ := hsame p hp
      refine ⟨_, l.read (poolOf p.path) name n.id, l'.read (poolOf' p.path) name n.id, rfl, rfl, ?_⟩
      rw [Ledger.read_of_get? ha, Ledger.read_of_get? hb, hab.lookup_eq]
      cases a.lookup name with
      | none => exact ⟨hsame, .none _ _ _, .none _ _ _⟩
      | some slot => exact ⟨hsame, .one n.id slot _ _, .none _ _ _⟩
  | unread => exact alike_fail _ _ _ _
  | type | other => exact alike_done _ _ _

/-- and leaving it. -/
theorem alike_leave (hp : p ∈ ast.places root) (hn : p.node? = some n) :
    Alike (SameNames ast root poolOf poolOf') [] [n.id] (leave facts p) (leave facts' p) := by
  rw [leave_of_some hn (h.fetch_pool hp hn), leave_of_some hn (h'.fetch_pool hp hn)]
  intro l l' hsame
  obtain ⟨a, b, ha, hb, hab⟩ := hsame p hp
  unfold leaveNode
  cases n.kind.naming with
  | frame =>
    simp only [ha, hb, hab.size_eq]
    exact ⟨_, _, _, rfl, rfl, hsame, .none _ _ _, .one n.id a.size _ _⟩
  | declares name | reads name | type | unread | other =>
    exact ⟨_, _, _, rfl, rfl, hsame, .none _ _ _, .none _ _ _⟩

end

/-! ## Runs that agree -/

theorem get?_of_place (hi : ast.Intact root) (hp : p ∈ ast.places root) (hn : p.node? = some n) :
    ast.get? n.id = some n := (hi.acyclic.unfolds_outline.get?_of_node? hp hn).2

/-- The ids of the nodes at these places. -/
def idsOf (ps : List Place) : List NodeId := ps.filterMap fun p => p.node?.map (·.id)

theorem mem_idsOf {ps : List Place} {id : NodeId} :
    id ∈ idsOf ps ↔ ∃ p ∈ ps, ∃ n, p.node? = some n ∧ n.id = id := by
  simp only [idsOf, List.mem_filterMap, Option.map_eq_some_iff]

/-- Different places of an intact tree have nodes with different indices. -/
theorem nodup_idsOf (hi : ast.Intact root) {ps : List Place} (hps : ps ⊆ ast.places root)
    (hne : ps.Pairwise fun p q => p.path ≠ q.path) : ((idsOf ps).map Key.index).Nodup := by
  unfold idsOf
  rw [List.map_filterMap]
  refine List.pairwise_filterMap.mpr (hne.imp_of_mem fun {p q} hp hq hne i hpi j hqj => ?_)
  simp only [Option.map_eq_some_iff] at hpi hqj
  obtain ⟨-, ⟨n, hn, rfl⟩, rfl⟩ := hpi
  obtain ⟨-, ⟨m, hm, rfl⟩, rfl⟩ := hqj
  exact index_ne hi (hps hp) (hps hq) (fun heq => hne (congrArg Place.path heq)) hn hm

/-- Going through the same events, from pools that hold the same names. -/
theorem through_alike (h : Housed ast root facts poolOf) (h' : Housed ast root facts' poolOf')
    (hi : ast.Intact root) (source : Nat) {es : List Event}
    (hes : ∀ p, .enter p ∈ es ∨ .leave p ∈ es → p ∈ ast.places root) :
    Alike (SameNames ast root poolOf poolOf') (idsOf (es.filterMap Event.entered?))
      (idsOf (es.filterMap Event.left?)) (Walk.through (enter source facts) (leave facts) es)
      (Walk.through (enter source facts') (leave facts') es) := by
  induction es with
  | nil => exact alike_done _ _ _
  | cons e es ih =>
    have hrest := ih fun p hp => hes p (hp.imp (List.mem_cons_of_mem _) (List.mem_cons_of_mem _))
    cases e with
    | enter p =>
      have hp := hes p (.inl List.mem_cons_self)
      obtain ⟨n, hn, -⟩ := hi.sound hp
      have hids : idsOf ((Event.enter p :: es).filterMap Event.entered?) =
          [n.id] ++ idsOf (es.filterMap Event.entered?) := by
        show idsOf (p :: _) = _
        unfold idsOf
        rw [List.filterMap_cons, hn]
        rfl
      rw [hids]
      exact (alike_enter h h' source hp hn).andThen hrest
    | leave p =>
      have hp := hes p (.inr List.mem_cons_self)
      obtain ⟨n, hn, -⟩ := hi.sound hp
      have hids : idsOf ((Event.leave p :: es).filterMap Event.left?) =
          [n.id] ++ idsOf (es.filterMap Event.left?) := by
        show idsOf (p :: _) = _
        unfold idsOf
        rw [List.filterMap_cons, hn]
        rfl
      rw [hids]
      exact (alike_leave h h' hp hn).andThen hrest

/-- No place is come to twice, -/
theorem pairwise_entered :
    ((ast.events root).filterMap Event.entered?).Pairwise fun p q => p.path ≠ q.path := by
  refine (Outline.pairwise_places [] [] (ast.outline root)).imp fun {p q} hlt heq => ?_
  exact List.lt_irrefl _ (heq ▸ hlt)

/-- and none is left twice. -/
theorem pairwise_left :
    ((ast.events root).filterMap Event.left?).Pairwise fun p q => p.path ≠ q.path := by
  have hevents := Outline.pairwise_events [] [] (ast.outline root)
  refine List.pairwise_filterMap.mpr (hevents.imp fun {e e'} hprecedes p hp q hq => ?_)
  cases e <;> cases hp
  cases e' <;> cases hq
  exact hprecedes

theorem mem_left {es : List Event} : p ∈ es.filterMap Event.left? ↔ .leave p ∈ es := by
  rw [List.mem_filterMap]
  constructor
  · rintro ⟨e, he, hp⟩
    cases e <;> cases hp
    exact he
  · exact fun h => ⟨_, h, rfl⟩

/-- Values for live nodes with different indices. -/
structure Once (ast : Ast) (entries : List (NodeId × Nat)) : Prop where
  nodup : (entries.map fun entry => entry.1.index).Nodup
  live : ∀ entry ∈ entries, ∃ n, ast.get? entry.1 = some n

theorem Once.of_sublist (hi : ast.Intact root) {entries : List (NodeId × Nat)} {ps : List Place}
    (hps : ps ⊆ ast.places root) (hne : ps.Pairwise fun p q => p.path ≠ q.path)
    (hsub : (entries.map Prod.fst).Sublist (idsOf ps)) : Once ast entries := by
  constructor
  · have hindices := (hsub.map Key.index).nodup (nodup_idsOf hi hps hne)
    rwa [List.map_map] at hindices
  · intro entry hentry
    obtain ⟨p, hp, n, hn, hid⟩ := mem_idsOf.mp (hsub.subset (List.mem_map_of_mem hentry))
    exact ⟨n, hid ▸ get?_of_place hi (hps hp) hn⟩

theorem Once.filterMap (hi : ast.Intact root) {ps : List Place} (hps : ps ⊆ ast.places root)
    (hne : ps.Pairwise fun p q => p.path ≠ q.path) {given? : Place → Option (NodeId × Nat)}
    (hentry : ∀ p entry, given? p = some entry → ∃ n, p.node? = some n ∧ n.id = entry.1) :
    Once ast (ps.filterMap given?) := by
  refine .of_sublist hi hps hne ?_
  clear hps hne
  induction ps with
  | nil => exact .slnil
  | cons p ps ih =>
    cases hp : given? p with
    | none =>
      rw [List.filterMap_cons_none hp]
      exact ih.trans ((List.sublist_cons_self p ps).filterMap _)
    | some entry =>
      obtain ⟨n, hn, hid⟩ := hentry p entry hp
      have hfirst : idsOf (p :: ps) = entry.1 :: idsOf ps := by
        unfold idsOf
        rw [List.filterMap_cons, hn, ← hid]
        rfl
      rw [List.filterMap_cons_some hp, hfirst]
      exact ih.cons_cons entry.1

/-- A node reads what was written to it, and else what it read before. -/
theorem Once.fetch_insertAll {entries : List (NodeId × Nat)} (h : Once ast entries) {id : NodeId}
    (hn : ast.get? id = some n) {t : SideTable .node Nat} (hnew : ¬ t.Outdates id) :
    (t.insertAll entries).fetch id = (entries.lookup id).or (t.fetch id) := by
  refine t.fetch_insertAll h.nodup (Arena.index_ne_zero hn) hnew fun entry he heq => ?_
  obtain ⟨m, hm⟩ := h.live entry he
  exact Arena.eq_of_index_eq hm hn heq

/-- Writing to a table with something in it shows what writing to an empty one does. -/
theorem Once.fetch_eq_or {entries : List (NodeId × Nat)} (h : Once ast entries) {id : NodeId}
    (hn : ast.get? id = some n) {t : SideTable .node Nat} (hnew : ¬ t.Outdates id) :
    (t.insertAll entries).fetch id =
      ((SideTable.empty.insertAll entries).fetch id).or (t.fetch id) := by
  rw [h.fetch_insertAll hn hnew, h.fetch_insertAll hn (SideTable.not_outdates_empty id),
    SideTable.fetch_empty, Option.or_none]

/-- Going through a whole tree both runs attach the same to every node, once. -/
theorem events_alike (h : Housed ast root facts poolOf) (h' : Housed ast root facts' poolOf')
    (hi : ast.Intact root) (l l' : Ledger)
    (hsame : SameNames ast root poolOf poolOf' l.pools l'.pools) :
    ∃ result m m' slots frames,
      Walk.through (enter ast.source facts) (leave facts) (ast.events root) l = (result, m) ∧
      Walk.through (enter ast.source facts') (leave facts') (ast.events root) l' = (result, m') ∧
      Once ast slots ∧ m.slots = l.slots.insertAll slots ∧ m'.slots = l'.slots.insertAll slots ∧
      Once ast frames ∧ m.frames = l.frames.insertAll frames ∧
        m'.frames = l'.frames.insertAll frames := by
  obtain ⟨result, m, m', hrun, hrun', -, ⟨slots, hslots, heq, heq'⟩, frames, hframes, hfeq,
    hfeq'⟩ := through_alike h h' hi ast.source (fun _ => mem_places_of_event) l l' hsame
  exact ⟨result, m, m', slots, frames, hrun, hrun',
    .of_sublist hi (List.Subset.refl _) pairwise_entered hslots, heq, heq',
    .of_sublist hi (fun p hp => mem_places_of_event (.inr (mem_left.mp hp))) pairwise_left hframes,
    hfeq, hfeq'⟩

/--
Numbering a tree twice, in pools that hold the same names: both runs end alike, and attach the same
slots and frames to what was there before.
-/
theorem traverse_alike (h : Housed ast root facts poolOf) (h' : Housed ast root facts' poolOf')
    (hi : ast.Intact root) (hsame : SameNames ast root poolOf poolOf' pools pools') :
    ∃ result m m' slots frames, traverse ast root { facts, pools } =
        (result, Ledger.state facts [] m) ∧
      traverse ast root { facts := facts', pools := pools' } =
        (result, Ledger.state facts' [] m') ∧
      Once ast slots ∧ m.slots = facts.slots.insertAll slots ∧
        m'.slots = facts'.slots.insertAll slots ∧
      Once ast frames ∧ m.frames = facts.frames.insertAll frames ∧
        m'.frames = facts'.frames.insertAll frames := by
  have ho := hi.acyclic.unfolds_outline
  obtain ⟨result, m, m', slots, frames, hrun, hrun', hattached⟩ :=
    events_alike h h' hi ⟨facts.slots, facts.frames, pools⟩
      ⟨facts'.slots, facts'.frames, pools'⟩ hsame
  refine ⟨result, m, m', slots, frames, ?_, ?_, hattached⟩
  · rw [traverse_eq ho, Walk.onPart, hrun]
  · rw [traverse_eq ho, Walk.onPart, hrun']

end Slots

end FlatScope
