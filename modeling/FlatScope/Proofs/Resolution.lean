import FlatScope.Proofs.Scoping

/-!
# Resolved trees

Resolving below an intact root succeeds whatever was attached before and whatever pools there were,
and every node is then in the pool that its nearest scope opened (`Resolved`). Only where the table
holds the pool of a later node with the same index does a node stay without one.
-/

namespace FlatScope.Resolve

variable {ast : Ast} {root : NodeId} {s s' : State} {poolOf : NodeId → PoolId}

/-- The scope is one of the tree. -/
def IsScope (ast : Ast) (root scope : NodeId) : Prop :=
  (∃ path, ast.at? root path = some scope) ∧ ast.opensScope scope

/-- What resolving a tree has done, where `poolOf` is the pool that each scope opened. -/
structure Resolved (ast : Ast) (root : NodeId) (s s' : State) (poolOf : NodeId → PoolId) :
    Prop where
  stack_eq : s'.stack = s.stack
  current_eq : s'.current = s.current
  attached : ∀ path id, ast.at? root path = some id → ∃ scope,
    ast.scope? root path = some scope ∧
      (¬ s.facts.pools.Outdates id → s'.facts.fetch .pool id = some (poolOf scope))
  outdated : ∀ path id, ast.at? root path = some id → s.facts.pools.Outdates id →
    s'.facts.fetch .pool id = none
  /-- two nodes share a pool if they share the nearest scope, and only then -/
  shared_iff : ∀ path path' id id', ast.at? root path = some id → ast.at? root path' = some id' →
    ¬ s.facts.pools.Outdates id → ¬ s.facts.pools.Outdates id' →
      (s'.facts.fetch .pool id = s'.facts.fetch .pool id' ↔
        ast.scope? root path = ast.scope? root path')
  /-- the pools of the scopes are new, of their kind and without slots, -/
  opened : ∀ n poolKind, IsScope ast root n.id → ast.get? n.id = some n →
    n.kind.poolKind? = some poolKind → s.pools.get? (poolOf n.id) = none ∧
      s'.pools.get? (poolOf n.id) = some { id := poolOf n.id, kind := poolKind }
  distinct : ∀ scope scope', IsScope ast root scope → IsScope ast root scope' →
    poolOf scope = poolOf scope' → scope = scope'
  /-- and there are no others but those from before -/
  pools_iff : ∀ pool, (∃ p, s'.pools.get? pool = some p) ↔
    (∃ p, s.pools.get? pool = some p) ∨ ∃ scope, IsScope ast root scope ∧ poolOf scope = pool
  kept : ∀ pool p, s.pools.get? pool = some p → s'.pools.get? pool = some p

/-- A log without repetition gives every node one pool. -/
theorem exists_poolOf {log : List (Node × PoolId)} (nodup : (log.map (·.1.id)).Nodup) :
    ∃ poolOf : NodeId → PoolId, ∀ e ∈ log, poolOf e.1.id = e.2 := by
  induction log with
  | nil => exact ⟨fun _ => .null, by simp⟩
  | cons e log ih =>
    obtain ⟨hfirst, hrest⟩ := List.nodup_cons.mp nodup
    obtain ⟨poolOf, h⟩ := ih hrest
    refine ⟨Function.update poolOf e.1.id e.2, List.forall_mem_cons.mpr ⟨?_, fun e' he' => ?_⟩⟩
    · exact Function.update_self e.1.id e.2 poolOf
    · have hne : e'.1.id ≠ e.1.id := fun heq => hfirst (List.mem_map.mpr ⟨e', he', heq⟩)
      rw [Function.update_of_ne hne, h e' he']

section

variable {o : Outline} {log : List (Node × PoolId)} {pools : Pools} {outer : PoolId}

theorem map_fst_eq_nodes (h : Attaches outer [o] s.pools log pools) :
    log.map Prod.fst = o.nodes := by
  rw [h.map_fst, List.flatMap_singleton]

theorem map_id_eq_ids (h : Attaches outer [o] s.pools log pools) : log.map (·.1.id) = o.ids := by
  rw [Outline.ids, ← map_fst_eq_nodes h, List.map_map]
  rfl

theorem get?_of_mem_log (h : Attaches outer [o] s.pools log pools) (hs : ast.Shows o)
    {e : Node × PoolId} (he : e ∈ log) : ast.get? e.1.id = some e.1 :=
  hs.get?_of_mem (map_fst_eq_nodes h ▸ List.mem_map_of_mem he)

/-- The nodes of a tree without repetition have different places in a side table. -/
theorem nodup_indices (h : Attaches outer [o] s.pools log pools) (hs : ast.Shows o)
    (nodup : o.ids.Nodup) :
    ((log.map fun e => (e.1.id, e.2)).map fun entry => entry.1.index).Nodup := by
  have hindices : (log.map fun e => (e.1.id, e.2)).map (fun entry => entry.1.index) =
      o.ids.map Key.index := by
    rw [← map_id_eq_ids h, List.map_map, List.map_map]
    rfl
  rw [hindices]
  refine nodup.map_on fun id hid id' hid' heq => ?_
  obtain ⟨n, hn, rfl⟩ := List.mem_map.mp hid
  obtain ⟨n', hn', rfl⟩ := List.mem_map.mp hid'
  exact Arena.eq_of_index_eq (hs.get?_of_mem hn) (hs.get?_of_mem hn') heq

theorem exists_path_of_mem_log (h : Attaches outer [o] s.pools log pools) (hs : ast.Shows o)
    {e : Node × PoolId} (he : e ∈ log) : ∃ path, ast.at? o.id path = some e.1.id := by
  rw [← hs.mem_ids_iff, ← map_id_eq_ids h]
  exact List.mem_map.mpr ⟨e, he, rfl⟩

/-- A node of the tree was attached to the pool of its nearest scope, without one to that around. -/
theorem exists_entry (h : Attaches outer [o] s.pools log pools) (hs : ast.Shows o)
    (hpoolOf : ∀ e ∈ log, poolOf e.1.id = e.2) {path : List Nat} {id : NodeId}
    (hp : ast.at? o.id path = some id) :
    ∃ n, n.id = id ∧ (n, (ast.scope? o.id path).elim outer poolOf) ∈ log := by
  obtain ⟨n, pool, hn, hmem, hscope⟩ :=
    h.mem_of_at? (List.forall_mem_singleton.mpr hs) List.mem_cons_self hp
  refine ⟨n, hn, ?_⟩
  cases hnearest : ast.scope? o.id path with
  | none =>
    rw [hnearest] at hscope
    obtain rfl : pool = outer := hscope
    exact hmem
  | some scope =>
    rw [hnearest] at hscope
    obtain ⟨m, rfl, hm⟩ := hscope
    rwa [Option.elim_some, hpoolOf _ hm]

theorem isScope_of_scope? {path : List Nat} {scope : NodeId}
    (h : ast.scope? root path = some scope) : IsScope ast root scope :=
  ⟨Ast.exists_at?_of_mem_trail (List.mem_reverse.mp (List.mem_of_find?_eq_some h)),
    Ast.opensScope_of_scope? h⟩

/-- In a tree whose top opens a scope every node has a nearest one. -/
theorem exists_scoped_entry (h : Attaches outer [o] s.pools log pools) (hs : ast.Shows o)
    (hopens : ast.opensScope o.id) (hpoolOf : ∀ e ∈ log, poolOf e.1.id = e.2) {path : List Nat}
    {id : NodeId} (hp : ast.at? o.id path = some id) :
    ∃ n scope, n.id = id ∧ ast.scope? o.id path = some scope ∧ IsScope ast o.id scope ∧
      (n, poolOf scope) ∈ log := by
  obtain ⟨n, hn, hmem⟩ := exists_entry h hs hpoolOf hp
  obtain ⟨scope, hnearest⟩ := Ast.exists_scope? hopens path
  rw [hnearest] at hmem
  exact ⟨n, scope, hn, hnearest, isScope_of_scope? hnearest, hmem⟩

/-- A scope of the tree was attached to the pool that it opened. -/
theorem exists_scope_entry (h : Attaches outer [o] s.pools log pools) (hs : ast.Shows o)
    (hpoolOf : ∀ e ∈ log, poolOf e.1.id = e.2) {scope : NodeId} (hscope : IsScope ast o.id scope) :
    ∃ n, n.id = scope ∧ ast.get? scope = some n ∧ n.kind.opensScope ∧ (n, poolOf scope) ∈ log := by
  obtain ⟨⟨path, hp⟩, hsc⟩ := hscope
  obtain ⟨n, rfl, hmem⟩ := exists_entry h hs hpoolOf hp
  have hn : ast.get? n.id = some n := get?_of_mem_log h hs hmem
  have hpool := hpoolOf _ hmem
  unfold Ast.opensScope at hsc
  rw [hn, Option.any_some] at hsc
  exact ⟨n, rfl, hn, hsc, hpool ▸ hmem⟩

/-- What the scopes of a tree have done to the pools, where `poolOf` is the one each opened. -/
structure Opens (ast : Ast) (root : NodeId) (pools pools' : Pools) (poolOf : NodeId → PoolId) :
    Prop where
  /-- the pools of the scopes are new, of their kind and without slots, -/
  opened : ∀ n poolKind, IsScope ast root n.id → ast.get? n.id = some n →
    n.kind.poolKind? = some poolKind → pools.get? (poolOf n.id) = none ∧
      pools'.get? (poolOf n.id) = some { id := poolOf n.id, kind := poolKind }
  distinct : ∀ scope scope', IsScope ast root scope → IsScope ast root scope' →
    poolOf scope = poolOf scope' → scope = scope'
  /-- and there are no others but those from before -/
  pools_iff : ∀ pool, (∃ p, pools'.get? pool = some p) ↔
    (∃ p, pools.get? pool = some p) ∨ ∃ scope, IsScope ast root scope ∧ poolOf scope = pool
  kept : ∀ pool p, pools.get? pool = some p → pools'.get? pool = some p

/-- The pools opened are those of the scopes of the tree. -/
theorem mem_opened_iff (h : Attaches outer [o] s.pools log pools) (hs : ast.Shows o)
    (hpoolOf : ∀ e ∈ log, poolOf e.1.id = e.2) {pool : PoolId} :
    pool ∈ Attaches.opened log ↔ ∃ scope, IsScope ast o.id scope ∧ poolOf scope = pool := by
  constructor
  · intro hmem
    obtain ⟨⟨n, _⟩, he, rfl⟩ := List.mem_map.mp hmem
    obtain ⟨he, hkind⟩ := List.mem_filter.mp he
    refine ⟨n.id, ⟨exists_path_of_mem_log h hs he, ?_⟩, hpoolOf _ he⟩
    unfold Ast.opensScope
    rw [get?_of_mem_log h hs he]
    exact hkind
  · rintro ⟨scope, hscope, rfl⟩
    obtain ⟨n, -, -, hkind, hmem⟩ := exists_scope_entry h hs hpoolOf hscope
    exact Attaches.mem_opened hmem hkind

theorem opens_of_attaches (h : Attaches outer [o] s.pools log pools) (hs : ast.Shows o)
    (hpoolOf : ∀ e ∈ log, poolOf e.1.id = e.2) : Opens ast o.id s.pools pools poolOf := by
  refine ⟨fun n poolKind hscope hn hkind => ?_, fun scope scope' hscope hscope' heq => ?_,
    fun pool => ?_, fun pool p => h.keeps⟩
  · obtain ⟨m, -, hget, hopensm, hmem⟩ := exists_scope_entry h hs hpoolOf hscope
    obtain rfl : m = n := by
      rw [hn] at hget
      cases hget
      rfl
    exact ⟨h.get?_eq_none_of_mem_opened (Attaches.mem_opened hmem hopensm),
      h.get?_opened hmem hkind⟩
  · obtain ⟨n, rfl, -, hkind, hmem⟩ := exists_scope_entry h hs hpoolOf hscope
    obtain ⟨n', rfl, -, hkind', hmem'⟩ := exists_scope_entry h hs hpoolOf hscope'
    have hentry := h.eq_of_opened hmem hmem' hkind hkind' heq
    exact congrArg (·.1.id) hentry
  · have hkeys : pool ∈ pools.keys ↔ pool ∈ s.pools.keys ∨ pool ∈ Attaches.opened log := by
      rw [h.keys.mem_iff, List.mem_append, or_comm]
    rwa [Arena.mem_keys, Arena.mem_keys, mem_opened_iff h hs hpoolOf] at hkeys

/-- What is attached to a node is the pool of its nearest scope, unless its place is taken. -/
theorem fetch_after (h : Attaches outer [o] s.pools log pools) (hs : ast.Shows o)
    (nodup : o.ids.Nodup) {n : Node} {pool : PoolId} (hmem : (n, pool) ∈ log) :
    (¬ s.facts.pools.Outdates n.id → (s.after log pools).facts.fetch .pool n.id = some pool) ∧
      (s.facts.pools.Outdates n.id → (s.after log pools).facts.fetch .pool n.id = none) := by
  have hindices := nodup_indices h hs nodup
  have hentry : (n.id, pool) ∈ log.map fun e => (e.1.id, e.2) := List.mem_map.mpr ⟨_, hmem, rfl⟩
  refine ⟨fun hnew => ?_, fun hout => ?_⟩
  · have hindex := Nat.pos_iff_ne_zero.mp (Arena.one_le_index (get?_of_mem_log h hs hmem))
    exact s.facts.pools.fetch_insertAll_of_mem hindices hentry hindex hnew
  · exact SideTable.fetch_insertAll_of_outdates hindices hentry hout

/-- What `Attaches` says about a tree without repetition. -/
theorem resolved_of_attaches (h : Attaches outer [o] s.pools log pools) (hs : ast.Shows o)
    (nodup : o.ids.Nodup) (hopens : ast.opensScope o.id) :
    ∃ poolOf, Resolved ast o.id s (s.after log pools) poolOf := by
  obtain ⟨poolOf, hpoolOf⟩ := exists_poolOf (map_id_eq_ids h ▸ nodup)
  have hpools := opens_of_attaches h hs hpoolOf
  refine ⟨poolOf, rfl, rfl, ?_, ?_, ?_, hpools.opened, hpools.distinct, hpools.pools_iff,
    hpools.kept⟩
  · intro path id hp
    obtain ⟨n, scope, rfl, hnearest, -, hmem⟩ := exists_scoped_entry h hs hopens hpoolOf hp
    exact ⟨scope, hnearest, (fetch_after h hs nodup hmem).1⟩
  · intro path id hp hout
    obtain ⟨n, rfl, hmem⟩ := exists_entry h hs hpoolOf hp
    exact (fetch_after h hs nodup hmem).2 hout
  · intro path path' id id' hp hp' hnew hnew'
    obtain ⟨n, scope, rfl, hnearest, hscope, hmem⟩ := exists_scoped_entry h hs hopens hpoolOf hp
    obtain ⟨n', scope', rfl, hnearest', hscope', hmem'⟩ :=
      exists_scoped_entry h hs hopens hpoolOf hp'
    rw [(fetch_after h hs nodup hmem).1 hnew, (fetch_after h hs nodup hmem').1 hnew', hnearest,
      hnearest', Option.some.injEq, Option.some.injEq]
    exact ⟨hpools.distinct scope scope' hscope hscope', congrArg poolOf⟩

end

/--
Resolving below an intact root that opens a scope succeeds, and puts every node into the pool of its
nearest scope unless the table holds a pool for a later node with the same index.
-/
theorem traverse_resolved (h : ast.Intact root) (hopens : ast.opensScope root) (s : State) :
    ∃ s' poolOf, traverse ast root s = (.ok (), s') ∧ Resolved ast root s s' poolOf := by
  have hshows := h.shows_outline
  have htop : ast.opensScope (ast.outline root).id := by rwa [Ast.id_outline]
  obtain ⟨log, pools, hlog, hvisit⟩ := visitTree_eq hshows h.read_outline htop .null s
  obtain ⟨poolOf, hresolved⟩ := resolved_of_attaches hlog hshows h.nodup_outline htop
  rw [Ast.id_outline] at hresolved
  rw [← Visitor.visit_eq] at hvisit
  exact ⟨s.after log pools, poolOf, hvisit, hresolved⟩

/-- A function whose body is a single `continue`. -/
theorem traverse_resolved_function : ∃ (ast : Ast) (root : NodeId) (s : State),
    ast.Intact root ∧ ast.opensScope root ∧
      ∃ s' poolOf, traverse ast root s = (.ok (), s') ∧ Resolved ast root s s' poolOf := by
  have hty := (Ast.Adds.refl (a := .empty 0) rfl).node
    (show (NodeKind.type .void).children = _ from rfl) ⟨0, 0, 4⟩
  have hparams := hty.trans ((Ast.Adds.refl hty.full).node
    (show (NodeKind.params []).children = _ from rfl) ⟨0, 6, 8⟩)
  have hbody := hparams.trans ((Ast.Adds.refl hparams.full).node
    (show NodeKind.cont.children = _ from rfl) ⟨0, 9, 18⟩)
  have hfunction := hbody.node
    (show (NodeKind.function (.at 1 1) "f" (.at 2 1) (.at 3 1)).children = _ from rfl) ⟨0, 0, 18⟩
  have hunit := hfunction.node
    (show (NodeKind.compUnit [.at 4 1]).children = _ from rfl) ⟨0, 0, 18⟩
  have hshows := hunit.shows _ List.mem_cons_self
  have hintact := hshows.intact (by decide) (by decide)
  exact ⟨_, .at 5 1, { facts := .empty, pools := .empty }, hintact, rfl,
    traverse_resolved hintact rfl _⟩

/-- With a pool attached to a later node with the index of the root, the root stays without one. -/
theorem not_forall_attached : ¬ ∀ (ast : Ast) (root : NodeId) (n : Node) (classes : List NodeId),
    ast.Intact root → ast.get? root = some n → n.kind = .compUnit classes → ∀ s : State,
      ∃ s', traverse ast root s = (.ok (), s') ∧
        ∀ path id, ast.at? root path = some id → ∃ pool, s'.facts.fetch .pool id = some pool := by
  intro h
  have hunit : (Ast.empty 0).Adds ((Ast.empty 0).add (.compUnit []) ⟨0, 0, 0⟩).2
      [.node ⟨.at 1 1, .compUnit [], ⟨0, 0, 0⟩⟩ []] := (Ast.Adds.refl rfl).node rfl ⟨0, 0, 0⟩
  have hintact := (hunit.shows _ List.mem_cons_self).intact (by decide) (by decide)
  obtain ⟨s', hrun, hattached⟩ := h _ _ ⟨.at 1 1, .compUnit [], ⟨0, 0, 0⟩⟩ [] hintact rfl rfl
    { facts := Annotations.empty.insert .pool (.at 1 3) (.at 1 1), pools := .empty }
  obtain ⟨pool, hpool⟩ := hattached [] (.at 1 1) rfl
  have hs' : _ = s' := congrArg Prod.snd hrun
  rw [← hs'] at hpool
  cases hpool

end FlatScope.Resolve
