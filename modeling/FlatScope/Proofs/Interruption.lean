import FlatScope.Proofs.Openings

/-!
# Interrupted resolution

Below a unit or a function resolution fails exactly if a place is not sound, and the first such
place decides (`traverse_first_defect`): `Blames` says with which complaint. `Visited` says what
has been done to the nodes by then; the places that were not reached have no part in it.
-/

namespace FlatScope

/-- The place has a node, and the node was read. -/
def Place.Sound (p : Place) : Prop := ∃ n, p.node? = some n ∧ n.kind ≠ .error

instance (p : Place) : Decidable p.Sound :=
  decidable_of_iff (p.node?.any (·.kind ≠ .error) = true) (by
    unfold Place.Sound
    cases p.node? <;> simp)

namespace Ast

variable {ast : Ast} {root : NodeId} {n : Node} {p q : Place}

theorem exists_outline_eq_node (hn : ast.get? root = some n) :
    ∃ children, ast.outline root = .node n children := by
  have hmem : root ∈ ast.ids := mem_ids.mpr ⟨n, hn⟩
  obtain ⟨depth, hdepth⟩ : ∃ depth, ast.size = depth + 1 := by
    have hpos := List.length_pos_of_mem hmem
    rw [length_ids] at hpos
    exact ⟨ast.size - 1, by omega⟩
  unfold outline
  rw [hdepth, outlineWithin, hn]
  exact ⟨_, rfl⟩

theorem deeper_of_mem_places (hp : p ∈ ast.places root) : p.Deeper := by
  intro s hs
  rcases Outline.mem_above hp hs with hs | ⟨hlt, -, -⟩
  · cases hs
  · exact hlt

theorem eq_or_top_mem_above (hn : ast.get? root = some n) (hp : p ∈ ast.places root) :
    p.node? = some n ∧ p.path = [] ∨ ⟨[], n⟩ ∈ p.above := by
  obtain ⟨children, hout⟩ := exists_outline_eq_node hn
  unfold places at hp
  rw [hout] at hp
  rcases Outline.eq_or_mem_above hp with rfl | hmem
  · exact .inl ⟨rfl, rfl⟩
  · exact .inr hmem

/-- The top is at every place or above it. -/
theorem top_mem_spots (hn : ast.get? root = some n) (hp : p ∈ ast.places root) :
    ⟨[], n⟩ ∈ p.spots := by
  unfold Place.spots
  rcases eq_or_top_mem_above hn hp with ⟨hnode, hpath⟩ | hmem
  · rw [hnode, hpath]
    exact List.mem_cons_self
  · exact List.mem_append_right _ hmem

theorem above_ne_nil_of_missing (hn : ast.get? root = some n) (hp : p ∈ ast.places root)
    (hmissing : p.node? = none) : p.above ≠ [] := by
  rcases eq_or_top_mem_above hn hp with ⟨hnode, -⟩ | hmem
  · rw [hmissing] at hnode
    cases hnode
  · exact List.ne_nil_of_mem hmem

/-- Below a scope every place is in one. -/
theorem scope?_isSome (hn : ast.get? root = some n) (hopens : n.kind.opensScope = true)
    (hp : p ∈ ast.places root) : p.scope?.isSome := by
  unfold Place.scope?
  rw [Option.isSome_map, List.find?_isSome]
  exact ⟨_, top_mem_spots hn hp, hopens⟩

/-- The nearest scope of a place is on the way to it. -/
theorem prefix_of_scope? (hp : p ∈ ast.places root) {scope : List Nat}
    (hs : p.scope? = some scope) : scope <+: p.path := by
  obtain ⟨s, hmem, -, rfl⟩ := Place.scope?_eq_some hs
  unfold Place.spots at hmem
  rcases List.mem_append.mp hmem with hmem | hmem
  · obtain ⟨n, -, rfl⟩ := Option.map_eq_some_iff.mp (Option.mem_toList.mp hmem)
    exact List.prefix_rfl
  · rcases Outline.mem_above hp hmem with hs | ⟨-, hpre, -⟩
    · cases hs
    · exact hpre

theorem pairwise_of_prefix {ps rest : List Place} (hps : ast.places root = ps ++ rest) :
    ps.Pairwise fun p q => p.path < q.path := by
  have hsorted := Outline.pairwise_places [] [] (ast.outline root)
  exact hsorted.sublist (show ps.Sublist (ast.places root) from hps ▸ List.sublist_append_left _ _)

/-- What has a smaller path than a place is met before it. -/
theorem mem_of_lt {ps rest : List Place} (hps : ast.places root = ps ++ rest) (hp : p ∈ ps)
    (hq : q ∈ ast.places root) (hlt : q.path < p.path) : q ∈ ps := by
  have hsorted : (ast.places root).Pairwise fun p q => p.path < q.path :=
    Outline.pairwise_places [] [] (ast.outline root)
  rw [hps] at hsorted hq
  rcases List.mem_append.mp hq with hq | hq
  · exact hq
  · -- what comes behind `p` has a greater path
    have hback := (List.pairwise_append.mp hsorted).2.2 p hp q hq
    exact absurd (List.lt_trans hlt hback) (List.lt_irrefl _)

/-- The nearest scope of a place is a place that is met first. -/
theorem exists_scope_place {ps rest : List Place} (hps : ast.places root = ps ++ rest) (hp : p ∈ ps)
    {scope : List Nat} (hs : p.scope? = some scope) :
    ∃ q ∈ ps, q.opens = true ∧ q.path = scope := by
  obtain ⟨s, hmem, hopens, rfl⟩ := Place.scope?_eq_some hs
  have hall : p ∈ ast.places root := hps ▸ List.mem_append_left rest hp
  unfold Place.spots at hmem
  rcases List.mem_append.mp hmem with hmem | hmem
  · obtain ⟨n, hn, rfl⟩ := Option.map_eq_some_iff.mp (Option.mem_toList.mp hmem)
    exact ⟨p, hp, (Place.opens_eq hn).trans hopens, rfl⟩
  · rcases Outline.mem_above hall hmem with hs | ⟨hlt, -, q, hq, hpath, hnode⟩
    · cases hs
    · have hmet := mem_of_lt hps hp hq (hpath ▸ hlt)
      exact ⟨q, hmet, (Place.opens_eq hnode).trans hopens, hpath⟩

end Ast

namespace Resolve

variable {ast : Ast} {root : NodeId} {n : Node} {p : Place}

/-- The complaint about a place that is not sound. -/
inductive Blames (p : Place) : Diagnostic → Prop where
  /-- a dangling reference is blamed on the node that holds it, -/
  | missing {s : Spot} {above : List Spot} : p.node? = none → p.above = s :: above →
      Blames p {
        defect := .missingNode p.id
        loc := s.node.loc
        notes := [⟨"referenced from this `" ++ s.node.kind.name ++ "`", none⟩] }
  /-- a node that was not read on itself -/
  | unparsed {n : Node} : p.node? = some n → n.kind = .error →
      Blames p { defect := .unparsedNode, loc := n.loc }

/--
What a run from `s` to `s'` has done that came to these places, where `poolOf` is the pool of each
of them. A node is out of reach if the table holds a pool of a later node with the same index.
-/
structure Visited (ast : Ast) (ps : List Place) (s s' : State) (poolOf : List Nat → PoolId) :
    Prop where
  stack_eq : s'.stack = s.stack
  current_eq : s'.current = s.current
  table_eq : ∀ f, f ≠ .pool → s'.facts.table f = s.facts.table f
  /-- every node met has the pool of the place where it was met last, -/
  given : ∀ p ∈ ps, ∀ n, p.node? = some n → ¬ s.facts.pools.Outdates n.id →
    ∃ q ∈ ps, q.id = n.id ∧ (∀ q' ∈ ps, q'.id = n.id → ¬ q.path < q'.path) ∧
      s'.facts.fetch .pool n.id = some (poolOf q.path)
  outdated : ∀ p ∈ ps, ∀ n, p.node? = some n → s.facts.pools.Outdates n.id →
    s'.facts.fetch .pool n.id = none
  /-- which is that of the nearest scope -/
  nearest : ∀ p ∈ ps, ∀ n, p.node? = some n →
    ∃ q ∈ ps, q.opens = true ∧ p.scope? = some q.path ∧ poolOf p.path = poolOf q.path
  /-- the pools of the scopes are new, of their kind, without slots, -/
  opened : ∀ p ∈ ps, ∀ n poolKind, p.node? = some n → n.kind.poolKind? = some poolKind →
    s.pools.get? (poolOf p.path) = none ∧
      s'.pools.get? (poolOf p.path) = some { id := poolOf p.path, kind := poolKind }
  /-- and different from each other -/
  distinct : ∀ p ∈ ps, ∀ q ∈ ps, p.opens = true → q.opens = true →
    poolOf p.path = poolOf q.path → p = q
  /-- there are no others but those from before -/
  pools_iff : ∀ pool, (∃ p, s'.pools.get? pool = some p) ↔
    (∃ p, s.pools.get? pool = some p) ∨ ∃ p ∈ ps, p.opens = true ∧ poolOf p.path = pool
  kept : ∀ pool p, s.pools.get? pool = some p → s'.pools.get? pool = some p
  /-- a node that is at no other place than those behind has the pool that it had before -/
  untouched : ∀ id n, ast.get? id = some n → (∀ p ∈ ps, p.id ≠ id) →
    s'.facts.fetch .pool id = s.facts.fetch .pool id

section

variable {ps rest : List Place} {poolOf : List Nat → PoolId} {entry : NodeId × PoolId}

/-- What is attached is attached to live nodes, so one index means one node. -/
theorem fst_eq_of_index_eq (ho : ast.Unfolds (ast.outline root))
    (hps : ps ⊆ ast.places root) (he : entry ∈ attached poolOf ps) (hn : ast.get? n.id = some n)
    (hindex : entry.1.index = n.id.index) : entry.1 = n.id := by
  obtain ⟨p, hp, m, hm, rfl⟩ := mem_attached.mp he
  exact Arena.eq_of_index_eq (ho.get?_of_node? (hps hp) hm).2 hn hindex

/-- Nothing is attached to a node that is at none of the places. -/
theorem index_ne_of_mem_attached (ho : ast.Unfolds (ast.outline root))
    (hps : ps ⊆ ast.places root) {id : NodeId} (hn : ast.get? id = some n)
    (hne : ∀ p ∈ ps, p.id ≠ id) (he : entry ∈ attached poolOf ps) :
    id.index ≠ entry.1.index := by
  obtain ⟨p, hp, m, hm, rfl⟩ := mem_attached.mp he
  obtain ⟨hid, hget⟩ := ho.get?_of_node? (hps hp) hm
  intro hindex
  exact hne p hp (hid.symm.trans (Arena.eq_of_index_eq hget hn hindex.symm))

/-- Of the places with one id there is a last. -/
theorem exists_last_place {p : Place} (hp : p ∈ ps) :
    ∃ before q after, ps = before ++ q :: after ∧ q.id = p.id ∧ ∀ q' ∈ after, q'.id ≠ p.id := by
  have hfound : (ps.reverse.find? (·.id = p.id)).isSome :=
    List.find?_isSome.mpr ⟨p, List.mem_reverse.mpr hp, decide_eq_true rfl⟩
  obtain ⟨q, hq⟩ := Option.isSome_iff_exists.mp hfound
  obtain ⟨hid, after, before, hsplit, hafter⟩ := List.find?_eq_some_iff_append.mp hq
  refine ⟨before.reverse, q, after.reverse, ?_, of_decide_eq_true hid, fun q' hq' => ?_⟩
  · rw [← List.reverse_reverse ps, hsplit, List.reverse_append, List.reverse_cons,
      List.append_assoc, List.singleton_append]
  · have hne := hafter q' (List.mem_reverse.mp hq')
    simpa using hne

/-- A node that was met has the pool of the place where it was met last. -/
theorem exists_given (ho : ast.Unfolds (ast.outline root)) (hsub : ps ⊆ ast.places root)
    (sorted : ps.Pairwise fun p q => p.path < q.path) (table : SideTable .node PoolId) (hp : p ∈ ps)
    (hn : p.node? = some n) (hnew : ¬ table.Outdates n.id) :
    ∃ q ∈ ps, q.id = n.id ∧ (∀ q' ∈ ps, q'.id = n.id → ¬ q.path < q'.path) ∧
      (table.insertAll (attached poolOf ps)).fetch n.id = some (poolOf q.path) := by
  obtain ⟨before, q, after, rfl, hid, hlast⟩ := exists_last_place hp
  have hq : q ∈ before ++ q :: after := List.mem_append_right _ List.mem_cons_self
  have hbefore : before ⊆ ast.places root := fun q hq => hsub (List.mem_append_left _ hq)
  have hafter : after ⊆ ast.places root := fun q hq =>
    hsub (List.mem_append_right _ (List.mem_cons_of_mem _ hq))
  obtain ⟨hpid, hget⟩ := ho.get?_of_node? (hsub hp) hn
  rw [← hpid] at hid hlast
  have hqn : q.node? = some n := by rw [ho.node?_eq (hsub hq), hid, hget]
  refine ⟨q, hq, hid, fun q' hq' hid' => ?_, ?_⟩
  · obtain ⟨-, -, hlt⟩ := List.pairwise_append.mp sorted
    rcases List.mem_append.mp hq' with hq' | hq'
    · have hback := hlt q' hq' q List.mem_cons_self
      exact fun h => List.lt_irrefl _ (List.lt_trans h hback)
    · rcases List.mem_cons.mp hq' with rfl | hq'
      · exact List.lt_irrefl _
      · exact absurd hid' (hlast q' hq')
  · rw [attached_append, attached_cons _ hqn]
    exact table.fetch_insertAll_last (Arena.index_ne_zero hget) hnew
      (fun entry he hi => fst_eq_of_index_eq ho hbefore he hget hi)
      fun entry he => index_ne_of_mem_attached ho hafter hget hlast he

/-- What `Met` says about the nodes. -/
theorem Visited.of_met {facts : Annotations} {pools : Pools} {r : Record}
    (hn : ast.get? root = some n) (hopens : n.kind.opensScope = true)
    (ho : ast.Unfolds (ast.outline root)) (hps : ast.places root = ps ++ rest)
    (h : Met ps ⟨facts.pools, pools, fun _ => .null⟩ r) :
    Visited ast ps { facts, pools } (r.state facts []) r.poolOf := by
  have hsub : ps ⊆ ast.places root := hps ▸ List.subset_append_left ps rest
  have hfetch : ∀ id, (r.state facts []).facts.fetch .pool id =
      (facts.pools.insertAll (attached r.poolOf ps)).fetch id := by
    intro id
    rw [← h.table_eq]
    rfl
  refine ⟨rfl, rfl, ?_, ?_, ?_, ?_, ?_, ?_, ?_, h.kept, ?_⟩
  · intro f hf
    cases f <;> first | rfl | exact absurd rfl hf
  · intro p hp m hm hnew
    rw [hfetch]
    exact exists_given ho hsub (Ast.pairwise_of_prefix hps) facts.pools hp hm hnew
  · intro p hp m hm hout
    have hget := (ho.get?_of_node? (hsub hp) hm).2
    rw [hfetch]
    refine SideTable.fetch_of_outdates
      ((facts.pools.outdates_insertAll (Arena.index_ne_zero hget) ?_).mpr hout)
    exact fun entry he hi => fst_eq_of_index_eq ho hsub he hget hi
  · intro p hp m hm
    obtain ⟨scope, hs⟩ := Option.isSome_iff_exists.mp
      (Ast.scope?_isSome hn hopens (hsub hp))
    obtain ⟨q, hq, hqopens, rfl⟩ := Ast.exists_scope_place hps hp hs
    exact ⟨q, hq, hqopens, hs, h.poolOf_eq p hp m q.path hm hs⟩
  · intro p hp m poolKind hm hk
    have hpopens : p.opens = true := (Place.opens_eq hm).trans (NodeKind.opensScope_eq_true hk)
    exact ⟨h.get?_eq_none hp hpopens, h.get?_opened p hp m poolKind hm hk⟩
  · exact fun p hp q hq => h.eq_of_poolOf_eq hp hq
  · intro pool
    have hkeys := h.keys.mem_iff (a := pool)
    rw [List.mem_append, mem_openings_iff, or_comm] at hkeys
    rwa [← Arena.mem_keys, ← Arena.mem_keys]
  · intro id m hm hne
    rw [hfetch]
    exact facts.pools.fetch_insertAll_of_forall_ne fun entry he =>
      index_ne_of_mem_attached ho hsub hm hne he

end

/-! ## The first place that is not sound -/

section

variable {source : Nat}

theorem complaint?_of_sound (h : p.Sound) (hs : p.scope?.isSome) : complaint? source p = none := by
  obtain ⟨n, hn, hread⟩ := h
  obtain ⟨scope, hs⟩ := Option.isSome_iff_exists.mp hs
  unfold complaint?
  rw [hn, hs]
  exact if_neg hread

theorem exists_blames (source : Nat) (h : ¬ p.Sound) (hs : p.scope?.isSome)
    (habove : p.node? = none → p.above ≠ []) :
    ∃ d, complaint? source p = some d ∧ Blames p d := by
  cases hn : p.node? with
  | none =>
    obtain ⟨s, above, hcons⟩ := List.exists_cons_of_ne_nil (habove hn)
    refine ⟨_, ?_, .missing hn hcons⟩
    unfold complaint?
    rw [hn, hcons]
    rfl
  | some n =>
    have hkind : n.kind = .error := by
      by_contra hread
      exact h ⟨n, hn, hread⟩
    obtain ⟨scope, hs⟩ := Option.isSome_iff_exists.mp hs
    refine ⟨_, ?_, .unparsed hn hkind⟩
    unfold complaint?
    rw [hn, hs]
    exact if_pos hkind

end

theorem exists_first_unsound {ps : List Place} (h : ¬ ∀ p ∈ ps, p.Sound) :
    ∃ before p after, ps = before ++ p :: after ∧ (∀ q ∈ before, q.Sound) ∧ ¬ p.Sound := by
  induction ps with
  | nil => exact absurd (by simp) h
  | cons first ps ih =>
    by_cases hfirst : first.Sound
    · have hrest : ¬ ∀ p ∈ ps, p.Sound := fun hps => h (List.forall_mem_cons.mpr ⟨hfirst, hps⟩)
      obtain ⟨before, p, after, rfl, hbefore, hp⟩ := ih hrest
      exact ⟨first :: before, p, after, rfl, List.forall_mem_cons.mpr ⟨hfirst, hbefore⟩, hp⟩
    · exact ⟨[], first, ps, rfl, by simp, hfirst⟩

/-- Below a scope where everything is sound resolution meets all places. -/
theorem exists_met (facts : Annotations) (pools : Pools) (hn : ast.get? root = some n)
    (hopens : n.kind.opensScope = true) (ho : ast.Unfolds (ast.outline root))
    (hsound : ∀ p ∈ ast.places root, p.Sound) :
    ∃ r, traverse ast root { facts, pools } = (.ok (), Record.state facts [] r) ∧
      Met (ast.places root) ⟨facts.pools, pools, fun _ => .null⟩ r := by
  have hscope := fun p hp => Ast.scope?_isSome (p := p) hn hopens hp
  have hmet := met_foldl (Outline.pairwise_places [] [] (ast.outline root))
    (fun p hp => Ast.deeper_of_mem_places hp) hscope ⟨facts.pools, pools, fun _ => .null⟩
  have hnone : ∀ p ∈ ast.places root, complaint? ast.source p = none :=
    fun p hp => complaint?_of_sound (hsound p hp) (hscope p hp)
  refine ⟨_, ?_, hmet⟩
  rw [traverse_eq ho, Walk.onPart, each_act_of_none hnone]
  rfl

/-- Below a scope where everything is sound resolution succeeds and comes to all places. -/
theorem traverse_of_sound (facts : Annotations) (pools : Pools) (hn : ast.get? root = some n)
    (hopens : n.kind.opensScope = true) (ho : ast.Unfolds (ast.outline root))
    (hsound : ∀ p ∈ ast.places root, p.Sound) :
    ∃ s' poolOf, traverse ast root { facts, pools } = (.ok (), s') ∧
      Visited ast (ast.places root) { facts, pools } s' poolOf := by
  obtain ⟨r, hrun, hmet⟩ := exists_met facts pools hn hopens ho hsound
  exact ⟨_, _, hrun, Visited.of_met hn hopens ho (List.append_nil _).symm hmet⟩

/-- Resolution stops at the first place that is not sound, and blames that place. -/
theorem traverse_of_unsound (facts : Annotations) (pools : Pools) (hn : ast.get? root = some n)
    (hopens : n.kind.opensScope = true) (ho : ast.Unfolds (ast.outline root))
    {before after : List Place} (hsplit : ast.places root = before ++ p :: after)
    (hbefore : ∀ q ∈ before, q.Sound) (hp : ¬ p.Sound) :
    ∃ d s' poolOf, traverse ast root { facts, pools } = (.error d, s') ∧
      Blames p d ∧ Visited ast (before ++ [p]) { facts, pools } s' poolOf := by
  have hprefix : ast.places root = (before ++ [p]) ++ after := by simp [hsplit]
  have hsub : before ++ [p] ⊆ ast.places root := hprefix ▸ List.subset_append_left _ _
  have hscope := fun q hq => Ast.scope?_isSome (p := q) hn hopens (hsub hq)
  have hmet := met_foldl (Ast.pairwise_of_prefix hprefix)
    (fun q hq => Ast.deeper_of_mem_places (hsub hq)) hscope ⟨facts.pools, pools, fun _ => .null⟩
  have hnone : ∀ q ∈ before, complaint? ast.source q = none :=
    fun q hq => complaint?_of_sound (hbefore q hq) (hscope q (List.mem_append_left _ hq))
  have hmem : p ∈ before ++ [p] := List.mem_append_right _ (List.mem_singleton_self p)
  obtain ⟨d, hd, hblames⟩ := exists_blames ast.source hp (hscope p hmem)
    (Ast.above_ne_nil_of_missing hn (hsub hmem))
  refine ⟨d, _, _, ?_, hblames, Visited.of_met hn hopens ho hprefix hmet⟩
  rw [traverse_eq ho, hsplit, Walk.onPart, each_act_of_some hnone hd]

/--
Resolving from a live node on. Outside a scope the node itself is refused. Below a scope what is
sound is resolved; else the first place that is not sound is blamed, and what was met until then has
its pool.
-/
theorem traverse_first_defect (hn : ast.get? root = some n) (facts : Annotations) (pools : Pools) :
    (n.kind.opensScope = false → traverse ast root { facts, pools } =
      (.error { defect := .noActiveScope n.kind.name, loc := n.loc }, { facts, pools })) ∧
    (n.kind.opensScope = true → ast.Acyclic root →
      ((traverse ast root { facts, pools }).1 = .ok () ↔ ∀ p ∈ ast.places root, p.Sound) ∧
      ∀ before p after, ast.places root = before ++ p :: after → (∀ q ∈ before, q.Sound) →
        ¬ p.Sound → ∃ d s' poolOf, traverse ast root { facts, pools } = (.error d, s') ∧
          Blames p d ∧ Visited ast (before ++ [p]) { facts, pools } s' poolOf) := by
  constructor
  · intro hinner
    obtain ⟨children, hout⟩ := Ast.exists_outline_eq_node hn
    rw [traverse, Visitor.visit_eq, hout, Visitor.visitTree]
    exact around_of_outside (NodeKind.opensScope_eq_false.mp hinner) rfl _
  · intro hopens hacyclic
    have ho := hacyclic.unfolds_outline
    refine ⟨⟨fun hok => ?_, fun hsound => ?_⟩, fun before p after hsplit hbefore hp =>
      traverse_of_unsound facts pools hn hopens ho hsplit hbefore hp⟩
    · by_contra hunsound
      obtain ⟨before, p, after, hsplit, hbefore, hp⟩ := exists_first_unsound hunsound
      obtain ⟨d, s', _, hrun, -⟩ := traverse_of_unsound facts pools hn hopens ho
        hsplit hbefore hp
      rw [hrun] at hok
      cases hok
    · obtain ⟨s', _, hrun, -⟩ := traverse_of_sound facts pools hn hopens ho hsound
      rw [hrun]

/-- A unit with a `break`, something that was not read, and a reference to nothing. -/
theorem traverse_first_defect_unit : ∃ (ast : Ast) (root : NodeId) (n : Node)
    (before after : List Place) (p : Place), ast.get? root = some n ∧ n.kind.opensScope = true ∧
      ast.Acyclic root ∧ ast.places root = before ++ p :: after ∧ before.length = 2 ∧
      ∃ d s' poolOf, traverse ast root { facts := .empty, pools := .empty } = (.error d, s') ∧
        Blames p d ∧
          Visited ast (before ++ [p]) { facts := .empty, pools := .empty } s' poolOf := by
  let ast := ((((Ast.empty 0).add .brk ⟨0, 0, 6⟩).2.add .error ⟨0, 7, 8⟩).2.add
    (.compUnit [.at 1 1, .at 2 1, .null]) ⟨0, 0, 8⟩).2
  have hacyclic : ast.Acyclic (.at 3 1) :=
    ((((Ast.rising_empty 0).add (by decide)).add (by decide)).add (by decide)).acyclic _
  let unit : Node := ⟨.at 3 1, .compUnit [.at 1 1, .at 2 1, .null], ⟨0, 0, 8⟩⟩
  let top : Place := ⟨[], [], unit.id, some unit⟩
  let stop : Place := ⟨[0], [⟨[], unit⟩], .at 1 1, some ⟨.at 1 1, .brk, ⟨0, 0, 6⟩⟩⟩
  let unread : Place := ⟨[1], [⟨[], unit⟩], .at 2 1, some ⟨.at 2 1, .error, ⟨0, 7, 8⟩⟩⟩
  have hsplit : ast.places (.at 3 1) =
      [top, stop] ++ unread :: [⟨[2], [⟨[], unit⟩], .null, none⟩] := by decide +kernel
  have hn : ast.get? (.at 3 1) = some unit := rfl
  have hrun := (traverse_first_defect hn .empty .empty).2 rfl hacyclic
  exact ⟨ast, .at 3 1, unit, _, _, _, rfl, rfl, hacyclic, hsplit, rfl,
    hrun.2 _ _ _ hsplit (by decide) (by decide)⟩

/--
With a pool attached to a later node with the index of the root, the root is left without one though
it was met before the run stopped.
-/
theorem not_forall_given : ¬ ∀ (ast : Ast) (root : NodeId) (n : Node), ast.get? root = some n →
    n.kind.opensScope = true → ast.Acyclic root → ∀ (facts : Annotations) (pools : Pools)
      (before after : List Place) (p : Place), ast.places root = before ++ p :: after →
        (∀ q ∈ before, q.Sound) → ¬ p.Sound →
          ∃ d s', traverse ast root { facts, pools } = (.error d, s') ∧
            ∀ q ∈ before, ∀ m, q.node? = some m →
              ∃ pool, s'.facts.fetch .pool m.id = some pool := by
  intro h
  let unit : Node := ⟨.at 1 1, .compUnit [.null], ⟨0, 0, 0⟩⟩
  let ast := ((Ast.empty 0).add unit.kind unit.loc).2
  have hacyclic : ast.Acyclic (.at 1 1) := ((Ast.rising_empty 0).add (by decide)).acyclic _
  obtain ⟨d, s', hrun, hgiven⟩ := h ast (.at 1 1) unit rfl rfl hacyclic
    (Annotations.empty.insert .pool (.at 1 3) (.at 1 1)) .empty [⟨[], [], unit.id, some unit⟩] []
    ⟨[0], [⟨[], unit⟩], .null, none⟩ rfl
    (List.forall_mem_singleton.mpr ⟨unit, rfl, by decide⟩) (by rintro ⟨m, hm, -⟩; cases hm)
  obtain ⟨pool, hpool⟩ := hgiven _ List.mem_cons_self unit rfl
  have hs' : _ = s' := congrArg Prod.snd hrun
  rw [← hs'] at hpool
  cases hpool

end Resolve

end FlatScope
