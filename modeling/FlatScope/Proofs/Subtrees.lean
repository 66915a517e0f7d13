import FlatScope.Proofs.Following
import FlatScope.Proofs.Resolution

/-!
# Resolving a part again

A part of a resolved tree is resolved again under the pool of the node above it. The scopes in the
part open new pools and the rest of it stays in the pool around, so the whole tree is grouped by its
nearest scopes as before (`Grouped.resolve_part`), and the same nodes share a pool
(`subtree_rejoined`). A part without a scope is left exactly as it was.
-/

namespace FlatScope

/-! ## Nearest scopes above a part -/

namespace Ast

variable {ast : Ast} {root part parent scope : NodeId} {path : List Nat} {i : Nat}

theorem Intact.below (h : ast.Intact root) (hp : ast.at? root path = some part) :
    ast.Intact part := by
  induction path generalizing root with
  | nil =>
    obtain rfl := Option.some.inj hp
    exact h
  | cons i path ih =>
    obtain ⟨child, hc, hp⟩ := at?_cons_eq_some.mp hp
    exact ih (h.child hc) hp

theorem at?_child (hp : ast.at? root path = some parent)
    (hc : (ast.children parent)[i]? = some part) (rest : List Nat) :
    ast.at? root (path ++ i :: rest) = ast.at? part rest := by
  rw [at?_append, hp, Option.bind_some, at?_cons hc]

/-- In a part the nearest scope is one of the part or, without one there, that of its parent. -/
theorem scope?_child (hp : ast.at? root path = some parent)
    (hc : (ast.children parent)[i]? = some part) (rest : List Nat) :
    ast.scope? root (path ++ i :: rest) = (ast.scope? part rest).or (ast.scope? root path) := by
  induction path generalizing root with
  | nil =>
    obtain rfl := Option.some.inj hp
    rw [List.nil_append, scope?_cons hc, scope?_nil]
  | cons j path ih =>
    obtain ⟨child, hchild, hp⟩ := at?_cons_eq_some.mp hp
    rw [List.cons_append, scope?_cons hchild, scope?_cons hchild, ih hp, Option.or_assoc]

/-- What has its nearest scope in a part is in the part. -/
theorem Intact.exists_of_scope?_below (h : ast.Intact root) (hp : ast.at? root path = some parent)
    (hc : (ast.children parent)[i]? = some part) {path' rest : List Nat}
    (hscope : ast.scope? root path' = some scope) (hin : ast.at? part rest = some scope) :
    ∃ rest', path' = path ++ i :: rest' := by
  have hmem : scope ∈ ast.trail root path' :=
    List.mem_reverse.mp (List.mem_of_find?_eq_some hscope)
  obtain ⟨front, ⟨back, rfl⟩, hfront⟩ := exists_prefix_of_mem_trail hmem
  have heq := h.once _ _ _ hfront ((at?_child hp hc rest).trans hin)
  exact ⟨rest ++ back, by rw [heq, List.append_assoc, List.cons_append]⟩

end Ast

namespace Resolve

variable {ast : Ast} {root part parent : NodeId} {path : List Nat} {i : Nat} {s s' t : State}
  {o : Outline} {n : Node} {log : List (Node × PoolId)} {pools : Pools} {outer pool : PoolId}
  {poolOf poolOf' : NodeId → PoolId} {facts facts' : Annotations}

/-! ## The nodes outside of a part -/

/-- Attaching pools to live nodes puts no later one into the place of any. -/
theorem outdates_after (h : Attaches outer [o] s.pools log pools) (hs : ast.Shows o)
    (hn : ast.get? n.id = some n) :
    (s.after log pools).facts.pools.Outdates n.id ↔ s.facts.pools.Outdates n.id := by
  refine s.facts.pools.outdates_insertAll (Nat.pos_iff_ne_zero.mp (Arena.one_le_index hn))
    fun entry hentry heq => ?_
  obtain ⟨e, he, rfl⟩ := List.mem_map.mp hentry
  exact Arena.eq_of_index_eq (get?_of_mem_log h hs he) hn heq

theorem fetch_after_of_outside (h : Attaches outer [o] s.pools log pools) (hs : ast.Shows o)
    (hn : ast.get? n.id = some n) (hout : ∀ path, ast.at? o.id path ≠ some n.id) :
    (s.after log pools).facts.fetch .pool n.id = s.facts.fetch .pool n.id := by
  refine s.facts.pools.fetch_insertAll_of_forall_ne fun entry hentry heq => ?_
  obtain ⟨e, he, rfl⟩ := List.mem_map.mp hentry
  obtain ⟨path, hp⟩ := exists_path_of_mem_log h hs he
  have hkey : n.id = e.1.id := Arena.eq_of_index_eq hn (get?_of_mem_log h hs he) heq
  exact hout path (hkey ▸ hp)

/-- The nodes of a tree are in the pools of their nearest scopes, where their places are free. -/
structure Grouped (ast : Ast) (root : NodeId) (facts : Annotations) (poolOf : NodeId → PoolId) :
    Prop where
  attached : ∀ path id, ast.at? root path = some id → ¬ facts.pools.Outdates id → ∃ scope,
    ast.scope? root path = some scope ∧ facts.fetch .pool id = some (poolOf scope)
  distinct : ∀ scope scope', IsScope ast root scope → IsScope ast root scope' →
    poolOf scope = poolOf scope' → scope = scope'

/-- However the scopes are given pools the same nodes share one. -/
theorem Grouped.shared_iff (h : Grouped ast root facts poolOf)
    (h' : Grouped ast root facts' poolOf') {path path' : List Nat} {id id' : NodeId}
    (hp : ast.at? root path = some id) (hp' : ast.at? root path' = some id')
    (hout : facts'.pools.Outdates id ↔ facts.pools.Outdates id)
    (hout' : facts'.pools.Outdates id' ↔ facts.pools.Outdates id') :
    facts'.fetch .pool id = facts'.fetch .pool id' ↔
      facts.fetch .pool id = facts.fetch .pool id' := by
  have hnone : ∀ {facts : Annotations} {id : NodeId}, facts.pools.Outdates id →
      facts.fetch .pool id = none := SideTable.fetch_of_outdates
  by_cases hold : facts.pools.Outdates id <;> by_cases hold' : facts.pools.Outdates id'
  · rw [hnone hold, hnone hold', hnone (hout.mpr hold), hnone (hout'.mpr hold')]
  · obtain ⟨_, -, hfetch⟩ := h.attached path' id' hp' hold'
    obtain ⟨_, -, hfetch'⟩ := h'.attached path' id' hp' fun hnew => hold' (hout'.mp hnew)
    rw [hnone hold, hnone (hout.mpr hold), hfetch, hfetch']
    exact iff_of_false (fun heq => nomatch heq) fun heq => nomatch heq
  · obtain ⟨_, -, hfetch⟩ := h.attached path id hp hold
    obtain ⟨_, -, hfetch'⟩ := h'.attached path id hp fun hnew => hold (hout.mp hnew)
    rw [hnone hold', hnone (hout'.mpr hold'), hfetch, hfetch']
    exact iff_of_false (fun heq => nomatch heq) fun heq => nomatch heq
  · obtain ⟨scope, hscope, hfetch⟩ := h.attached path id hp hold
    obtain ⟨scope', hscope', hfetch'⟩ := h.attached path' id' hp' hold'
    obtain ⟨_, heq, hthen⟩ := h'.attached path id hp fun hnew => hold (hout.mp hnew)
    obtain ⟨_, heq', hthen'⟩ := h'.attached path' id' hp' fun hnew => hold' (hout'.mp hnew)
    obtain rfl := Option.some.inj (hscope.symm.trans heq)
    obtain rfl := Option.some.inj (hscope'.symm.trans heq')
    rw [hfetch, hfetch', hthen, hthen', Option.some.injEq, Option.some.injEq]
    have hs := isScope_of_scope? hscope
    have hs' := isScope_of_scope? hscope'
    exact ⟨fun heq => congrArg poolOf (h'.distinct scope scope' hs hs' heq),
      fun heq => congrArg poolOf' (h.distinct scope scope' hs hs' heq)⟩

/-! ## Runs -/

theorem grouped_of_attaches (h : ast.Intact root) (hopens : ast.opensScope root)
    (hlog : Attaches outer [ast.outline root] s.pools log pools)
    (hpoolOf : ∀ e ∈ log, poolOf e.1.id = e.2) :
    Grouped ast root (s.after log pools).facts poolOf := by
  have hshows := h.shows_outline
  have hid := ast.id_outline root
  refine ⟨fun path id hp hnew => ?_, fun scope scope' hscope hscope' => ?_⟩
  · obtain ⟨n, scope, rfl, hscope, -, hmem⟩ := exists_scoped_entry hlog hshows (hid.symm ▸ hopens)
      hpoolOf (hid.symm ▸ hp)
    have hn := get?_of_mem_log hlog hshows hmem
    rw [hid] at hscope
    rw [outdates_after hlog hshows hn] at hnew
    exact ⟨scope, hscope, (fetch_after hlog hshows h.nodup_outline hmem).1 hnew⟩
  · have hpools := opens_of_attaches hlog hshows hpoolOf
    rw [hid] at hpools
    exact hpools.distinct scope scope' hscope hscope'

/-- The part is walked with the given pool on top of the stack, which comes off again. -/
theorem exists_attaches_subtree (h : ast.Intact part) (pool : PoolId) (t : State) :
    ∃ log last, Attaches pool [ast.outline part] t.pools log last ∧
      subtree ast part pool t = (.ok (), t.after log last) := by
  have hshows : ∀ o ∈ [ast.outline part], ast.Shows o :=
    List.forall_mem_singleton.mpr h.shows_outline
  have hread : ∀ n ∈ [ast.outline part].flatMap Outline.nodes, n.kind ≠ .error := by
    rw [List.flatMap_singleton]
    exact h.read_outline
  have hall : ∃ log last, Attaches pool [ast.outline part] (t.push pool).pools log last ∧
      (visitor ast.source).visitTrees [ast.outline part] (t.push pool) =
        (.ok (), (t.push pool).after log last) := visitTrees_eq hshows hread rfl
  obtain ⟨log, last, hlog, hvisit⟩ := hall
  rw [Visitor.visitTrees, Visitor.visitTrees, Walk.andThen_done] at hvisit
  refine ⟨log, last, hlog, ?_⟩
  unfold subtree traverse Walk.enclosed
  rw [Visitor.visit_eq, hvisit]
  rfl

/-- Every node of the part is in the pool of its nearest scope there, or in the one around. -/
theorem fetch_in_part (h : ast.Intact part)
    (hlog : Attaches pool [ast.outline part] t.pools log pools)
    (hpoolOf : ∀ e ∈ log, poolOf e.1.id = e.2) {rest : List Nat} {id : NodeId}
    (hin : ast.at? part rest = some id) (hfree : ¬ t.facts.pools.Outdates id) :
    (t.after log pools).facts.fetch .pool id =
      some ((ast.scope? part rest).elim pool poolOf) := by
  have hid := ast.id_outline part
  obtain ⟨n, rfl, hmem⟩ := exists_entry hlog h.shows_outline hpoolOf (hid.symm ▸ hin)
  rw [hid] at hmem
  exact (fetch_after hlog h.shows_outline h.nodup_outline hmem).1 hfree

/-- A scope of the part has a pool that was not there before. -/
theorem get?_eq_none_of_scope (h : ast.Intact part)
    (hlog : Attaches pool [ast.outline part] t.pools log pools)
    (hpoolOf : ∀ e ∈ log, poolOf e.1.id = e.2) {scope : NodeId}
    (hscope : IsScope ast part scope) : t.pools.get? (poolOf scope) = none := by
  rw [← ast.id_outline part] at hscope
  obtain ⟨n, -, -, hopens, hmem⟩ := exists_scope_entry hlog h.shows_outline hpoolOf hscope
  exact hlog.get?_eq_none_of_mem_opened (Attaches.mem_opened hmem hopens)

section

variable (h : ast.Intact root) (hg : Grouped ast root t.facts poolOf)
  (hp : ast.at? root path = some parent) (hc : (ast.children parent)[i]? = some part)
  (hpool : t.facts.fetch .pool parent = some pool)
include h hg hp hc hpool

/-- The part is resolved under the pool of a scope above it. -/
theorem Grouped.exists_scope_above : ∃ scope, ast.scope? root path = some scope ∧
    pool = poolOf scope ∧ ¬ ∃ rest, ast.at? part rest = some scope := by
  obtain ⟨scope, hscope, hfetch⟩ :=
    hg.attached path parent hp (SideTable.not_outdates_of_fetch hpool)
  refine ⟨scope, hscope, Option.some.inj (hpool.symm.trans hfetch), ?_⟩
  rintro ⟨rest, hin⟩
  obtain ⟨rest', heq⟩ := h.exists_of_scope?_below hp hc hscope hin
  exact absurd (congrArg List.length heq) (by simp)

/-- Together with the pools of the scopes outside, the new ones group the whole tree. -/
theorem Grouped.resolve_part (hlog : Attaches pool [ast.outline part] t.pools log pools)
    (hpoolOf : ∀ e ∈ log, poolOf' e.1.id = e.2)
    (hreg : ∀ scope, IsScope ast root scope → ∃ p, t.pools.get? (poolOf scope) = some p) :
    ∃ poolOf'', Grouped ast root (t.after log pools).facts poolOf'' := by
  classical
  obtain ⟨above, habove, rfl, hout⟩ := hg.exists_scope_above h hp hc hpool
  have hpart : ast.Intact part := (h.below hp).child hc
  have hshows := hpart.shows_outline
  have hid := ast.id_outline part
  refine ⟨fun scope => if ∃ rest, ast.at? part rest = some scope then poolOf' scope
    else poolOf scope, fun path' id hp' hfree => ?_, fun scope scope' hscope hscope' heq => ?_⟩
  · obtain ⟨n, hn, -⟩ := h.live path' id hp'
    obtain rfl := ast.id_eq id n hn
    rw [outdates_after hlog hshows hn] at hfree
    by_cases hin : ∃ rest, ast.at? part rest = some n.id
    · obtain ⟨rest, hin⟩ := hin
      obtain rfl := h.once _ _ _ hp' ((Ast.at?_child hp hc rest).trans hin)
      rw [Ast.scope?_child hp hc, fetch_in_part hpart hlog hpoolOf hin hfree, habove]
      cases hscope : ast.scope? part rest with
      | none => exact ⟨above, rfl, congrArg some (if_neg hout).symm⟩
      | some scope =>
        exact ⟨scope, rfl, congrArg some (if_pos (isScope_of_scope? hscope).1).symm⟩
    · obtain ⟨scope, hscope, hfetch⟩ := hg.attached path' n.id hp' hfree
      have houter : ¬ ∃ rest, ast.at? part rest = some scope := by
        rintro ⟨rest, hrest⟩
        obtain ⟨rest', rfl⟩ := h.exists_of_scope?_below hp hc hscope hrest
        exact hin ⟨rest', (Ast.at?_child hp hc rest').symm.trans hp'⟩
      refine ⟨scope, hscope, ?_⟩
      rw [fetch_after_of_outside hlog hshows hn fun rest hrest => hin ⟨rest, hid ▸ hrest⟩, hfetch,
        if_neg houter]
  · -- a new pool is not one of those from before
    have hdiffer : ∀ {c c' : NodeId}, IsScope ast part c → IsScope ast root c' →
        poolOf' c ≠ poolOf c' := by
      intro c c' hc hc' heq
      obtain ⟨p, hregistered⟩ := hreg c' hc'
      rw [← heq, get?_eq_none_of_scope hpart hlog hpoolOf hc] at hregistered
      cases hregistered
    have hnew := opens_of_attaches hlog hshows hpoolOf
    rw [hid] at hnew
    split at heq <;> split at heq
    · next hin hin' => exact hnew.distinct _ _ ⟨hin, hscope.2⟩ ⟨hin', hscope'.2⟩ heq
    · next hin _ => exact absurd heq (hdiffer ⟨hin, hscope.2⟩ hscope')
    · next _ hin' => exact absurd heq.symm (hdiffer ⟨hin', hscope'.2⟩ hscope)
    · exact hg.distinct _ _ hscope hscope' heq

/-- Without a scope in the part everything is attached where it is already. -/
theorem Grouped.after_eq_self (hlog : Attaches pool [ast.outline part] t.pools log pools)
    (hpoolOf : ∀ e ∈ log, poolOf' e.1.id = e.2)
    (hnone : ∀ scope, ¬ IsScope ast part scope) : t.after log pools = t := by
  obtain ⟨above, habove, rfl, -⟩ := hg.exists_scope_above h hp hc hpool
  have hpart : ast.Intact part := (h.below hp).child hc
  have hshows := hpart.shows_outline
  have hid := ast.id_outline part
  have hentries : ∀ entry ∈ log.map (fun e => (e.1.id, e.2)),
      t.facts.pools.fetch entry.1 = some entry.2 ∨ t.facts.pools.Outdates entry.1 := by
    intro entry hentry
    obtain ⟨e, he, rfl⟩ := List.mem_map.mp hentry
    obtain ⟨rest, hin⟩ := exists_path_of_mem_log hlog hshows he
    obtain ⟨n, hn, hmem⟩ := exists_entry hlog hshows hpoolOf hin
    rw [hid] at hin hmem
    have hscope : ast.scope? part rest = none :=
      Option.eq_none_iff_forall_ne_some.mpr fun scope hs => hnone scope (isScope_of_scope? hs)
    have hsame : e.2 = poolOf above := by
      rw [← hpoolOf e he, ← hn, hpoolOf _ hmem, hscope]
      rfl
    by_cases hout : t.facts.pools.Outdates e.1.id
    · exact .inr hout
    · have hp' := (Ast.at?_child hp hc rest).trans hin
      obtain ⟨scope, hnearest, hfetch⟩ := hg.attached _ _ hp' hout
      rw [Ast.scope?_child hp hc, hscope, habove] at hnearest
      obtain rfl := Option.some.inj hnearest
      exact .inl (hsame ▸ hfetch)
  have hinner : ∀ e ∈ log, e.1.kind.poolKind? = none := by
    intro e he
    obtain ⟨rest, hin⟩ := exists_path_of_mem_log hlog hshows he
    rw [hid] at hin
    have hclosed : ¬ ast.opensScope e.1.id = true := fun hopens => hnone _ ⟨⟨rest, hin⟩, hopens⟩
    rwa [Ast.opensScope_of_get? (get?_of_mem_log hlog hshows he), Bool.not_eq_true,
      Option.isSome_eq_false_iff, Option.isNone_iff_eq_none] at hclosed
  have hpools : pools = t.pools := hlog.eq_of_inner hinner
  unfold State.after
  rw [SideTable.insertAll_of_forall hentries, hpools]

end

/-! ## A part of a resolved tree -/

/--
What resolving a part of a tree under `pool` has done, where `poolOf` is the pool that each scope of
the part opened.
-/
structure Rejoined (ast : Ast) (root part : NodeId) (pool : PoolId) (t t' : State)
    (poolOf : NodeId → PoolId) : Prop where
  stack_eq : t'.stack = t.stack
  current_eq : t'.current = t.current
  /-- over the whole tree the same nodes share a pool -/
  shared_iff : ∀ path path' id id', ast.at? root path = some id → ast.at? root path' = some id' →
    (t'.facts.fetch .pool id = t'.facts.fetch .pool id' ↔
      t.facts.fetch .pool id = t.facts.fetch .pool id')
  /-- what is not in the part keeps its pool, -/
  outside : ∀ n, ast.get? n.id = some n → (∀ rest, ast.at? part rest ≠ some n.id) →
    t'.facts.fetch .pool n.id = t.facts.fetch .pool n.id
  /-- what is in it has that of its nearest scope there, without one that around, -/
  inside : ∀ rest id, ast.at? part rest = some id → ¬ t.facts.pools.Outdates id →
    t'.facts.fetch .pool id = some ((ast.scope? part rest).elim pool poolOf)
  /-- and nothing else is attached -/
  others : ∀ f ≠ .pool, t'.facts.table f = t.facts.table f
  opens : Opens ast part t.pools t'.pools poolOf
  still : (∀ scope, ¬ IsScope ast part scope) → t' = t

/-- A unit that is resolved is grouped by its scopes, all of whose pools are there. -/
theorem exists_grouped (h : ast.Intact root) (hopens : ast.opensScope root) (s : State) :
    ∃ s' poolOf, traverse ast root s = (.ok (), s') ∧ Grouped ast root s'.facts poolOf ∧
      ∀ scope, IsScope ast root scope → ∃ p, s'.pools.get? (poolOf scope) = some p := by
  have hshows := h.shows_outline
  have hid := ast.id_outline root
  obtain ⟨log, pools, hlog, hvisit⟩ :=
    visitTree_eq hshows h.read_outline (hid.symm ▸ hopens) .null s
  obtain ⟨poolOf, hpoolOf⟩ := exists_poolOf (map_id_eq_ids hlog ▸ h.nodup_outline)
  rw [← Visitor.visit_eq] at hvisit
  refine ⟨s.after log pools, poolOf, hvisit, grouped_of_attaches h hopens hlog hpoolOf,
    fun scope hscope => ?_⟩
  rw [← hid] at hscope
  exact ((opens_of_attaches hlog hshows hpoolOf).pools_iff _).mpr (.inr ⟨scope, hscope, rfl⟩)

/-- A part of a grouped tree is rejoined to it under the pool of the node above. -/
theorem Grouped.exists_rejoined (h : ast.Intact root) (hg : Grouped ast root t.facts poolOf)
    (hreg : ∀ scope, IsScope ast root scope → ∃ p, t.pools.get? (poolOf scope) = some p)
    (hp : ast.at? root path = some parent) (hc : (ast.children parent)[i]? = some part)
    (hpool : t.facts.fetch .pool parent = some pool) :
    ∃ t' poolOf', subtree ast part pool t = (.ok (), t') ∧
      Rejoined ast root part pool t t' poolOf' := by
  have hpart : ast.Intact part := (h.below hp).child hc
  have hshows := hpart.shows_outline
  have hid := ast.id_outline part
  obtain ⟨log, pools, hlog, hrun⟩ := exists_attaches_subtree hpart pool t
  obtain ⟨poolOf', hpoolOf⟩ := exists_poolOf (map_id_eq_ids hlog ▸ hpart.nodup_outline)
  obtain ⟨_, hg'⟩ := hg.resolve_part h hp hc hpool hlog hpoolOf hreg
  have hopens := opens_of_attaches hlog hshows hpoolOf
  rw [hid] at hopens
  have hsame : ∀ path id, ast.at? root path = some id →
      ((t.after log pools).facts.pools.Outdates id ↔ t.facts.pools.Outdates id) := by
    intro path id hp
    obtain ⟨n, hn, -⟩ := h.live path id hp
    obtain rfl := ast.id_eq id n hn
    exact outdates_after hlog hshows hn
  exact ⟨t.after log pools, poolOf', hrun,
    { stack_eq := rfl
      current_eq := rfl
      shared_iff := fun path path' id id' hp hp' =>
        hg.shared_iff hg' hp hp' (hsame path id hp) (hsame path' id' hp')
      outside := fun n hn hout =>
        fetch_after_of_outside hlog hshows hn fun rest => hid.symm ▸ hout rest
      inside := fun rest id => fetch_in_part hpart hlog hpoolOf
      others := fun f hf => by
        cases f with
        | pool => exact absurd rfl hf
        | slot => rfl
        | frame => rfl
        | number => rfl
        | text => rfl
      opens := hopens
      still := hg.after_eq_self h hp hc hpool hlog hpoolOf }⟩

/--
A unit is resolved, and then a part of it under the pool of the node above, by the same pass or by
another: the tree stays grouped as it is, with a new pool for every scope of the part.
-/
theorem subtree_rejoined {classes : List NodeId} (h : ast.Intact root)
    (hn : ast.get? root = some n) (hk : n.kind = .compUnit classes) (s : State) :
    ∃ s', traverse ast root s = (.ok (), s') ∧
      ∀ (path : List Nat) (parent : NodeId) (i : Nat) (part : NodeId) (pool : PoolId) (t : State),
        ast.at? root path = some parent → (ast.children parent)[i]? = some part →
        s'.facts.fetch .pool parent = some pool → t.facts = s'.facts → t.pools = s'.pools →
        ∃ t' poolOf, subtree ast part pool t = (.ok (), t') ∧
          Rejoined ast root part pool t t' poolOf := by
  have hopens : ast.opensScope root := by
    rw [Ast.opensScope_of_get? hn, hk]
    rfl
  obtain ⟨s', poolOf, hrun, hgrouped, hreg⟩ := exists_grouped h hopens s
  refine ⟨s', hrun, fun path parent i part pool t hp hc hpool hfacts hpools => ?_⟩
  rw [← hfacts] at hgrouped hpool
  rw [← hpools] at hreg
  exact hgrouped.exists_rejoined h hreg hp hc hpool

/-- A function, resolved again in the unit that it is in, gets another pool. -/
theorem subtree_rejoined_function : ∃ (ast : Ast) (root : NodeId) (n : Node)
    (classes : List NodeId) (s : State), ast.Intact root ∧ ast.get? root = some n ∧
      n.kind = .compUnit classes ∧ ∃ s' part pool t' poolOf, traverse ast root s = (.ok (), s') ∧
        ast.at? root [0] = some part ∧ s'.facts.fetch .pool root = some pool ∧
        subtree ast part pool s' = (.ok (), t') ∧ Rejoined ast root part pool s' t' poolOf ∧
        t'.facts.fetch .pool part ≠ s'.facts.fetch .pool part := by
  let ast := (((((Ast.empty 0).add (.type .void) ⟨0, 0, 4⟩).2.add (.params []) ⟨0, 6, 8⟩).2.add
    .cont ⟨0, 9, 18⟩).2.add (.function (.at 1 1) "f" (.at 2 1) (.at 3 1)) ⟨0, 0, 18⟩).2.add
    (.compUnit [.at 4 1]) ⟨0, 0, 18⟩ |>.2
  let unit : Node := ⟨.at 5 1, .compUnit [.at 4 1], ⟨0, 0, 18⟩⟩
  let function : Node := ⟨.at 4 1, .function (.at 1 1) "f" (.at 2 1) (.at 3 1), ⟨0, 0, 18⟩⟩
  have hshows : ast.Shows (.node unit [.node function [.node ⟨.at 1 1, .type .void, ⟨0, 0, 4⟩⟩ [],
      .node ⟨.at 2 1, .params [], ⟨0, 6, 8⟩⟩ [], .node ⟨.at 3 1, .cont, ⟨0, 9, 18⟩⟩ []]]) := by
    refine .node rfl rfl (List.forall_mem_singleton.mpr (.node rfl rfl ?_))
    refine List.forall_mem_cons.mpr ⟨.node rfl rfl (by simp), List.forall_mem_cons.mpr
      ⟨.node rfl rfl (by simp), List.forall_mem_singleton.mpr (.node rfl rfl (by simp))⟩⟩
  have hintact := hshows.intact (by decide +kernel) (by decide +kernel)
  let s : State := { facts := .empty, pools := .empty }
  obtain ⟨s', hrun, hpart⟩ := subtree_rejoined hintact (n := unit) rfl rfl s
  obtain rfl : (traverse ast (.at 5 1) s).2 = s' := congrArg Prod.snd hrun
  have hpool : ((traverse ast (.at 5 1) s).2.facts.fetch .pool (.at 5 1) : Option PoolId) =
      some (.at 1 1) := by decide +kernel
  obtain ⟨t', poolOf, hagain, hrejoined⟩ :=
    hpart [] (.at 5 1) 0 (.at 4 1) (.at 1 1) _ rfl rfl hpool rfl rfl
  obtain rfl : (subtree ast (.at 4 1) (.at 1 1) (traverse ast (.at 5 1) s).2).2 = t' :=
    congrArg Prod.snd hagain
  have hother : ((subtree ast (.at 4 1) (.at 1 1) (traverse ast (.at 5 1) s).2).2.facts.fetch .pool
      (.at 4 1) : Option PoolId) ≠ (traverse ast (.at 5 1) s).2.facts.fetch .pool (.at 4 1) := by
    decide +kernel
  exact ⟨ast, .at 5 1, unit, [.at 4 1], s, hintact, rfl, rfl, _, .at 4 1, .at 1 1, _, poolOf, hrun,
    rfl, hpool, hagain, hrejoined, hother⟩

end Resolve

end FlatScope
