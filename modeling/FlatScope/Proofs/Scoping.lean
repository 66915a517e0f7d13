import Mathlib.Logic.Function.Basic
import FlatScope.Proofs.Paths
import FlatScope.Resolve

/-!
# Nearest scopes

Scope resolution puts every node into the pool of its nearest scope, `ast.scope? root path`: the
last node on the way to it that opens one, the node itself included. `Attaches` says what the walk
does to the pools and what it attaches, without its stack; `visitTrees_eq` is the simulation. The
rest is read off `Attaches`: the nodes are attached once each (`Attaches.map_fst`), the pools opened
are new and distinct (`Attaches.keys`), and each node is in the right one (`Attaches.mem_of_at?`).
-/

namespace FlatScope

/-- The kind of pool that a node opens. -/
def NodeKind.poolKind? : NodeKind → Option PoolKind
  | compUnit _ => some .global
  | function .. => some .function
  | _ => none

theorem NodeKind.opensScope_eq (kind : NodeKind) : kind.opensScope = kind.poolKind?.isSome := by
  cases kind <;> rfl

theorem NodeKind.opensScope_eq_true {kind : NodeKind} {poolKind : PoolKind}
    (h : kind.poolKind? = some poolKind) : kind.opensScope = true := by
  rw [opensScope_eq, h]
  rfl

theorem NodeKind.opensScope_eq_false {kind : NodeKind} :
    kind.opensScope = false ↔ kind.poolKind? = none := by
  rw [opensScope_eq, Option.isSome_eq_false_iff, Option.isNone_iff_eq_none]

namespace Ast

variable {ast : Ast} {root id : NodeId} {o : Outline} {os : List Outline}

def opensScope (ast : Ast) (id : NodeId) : Bool := (ast.get? id).any (·.kind.opensScope)

/-- The nearest scope at the end of a path. -/
def scope? (ast : Ast) (root : NodeId) (path : List Nat) : Option NodeId :=
  (ast.trail root path).reverse.find? ast.opensScope

theorem scope?_nil (ast : Ast) (id : NodeId) :
    ast.scope? id [] = if ast.opensScope id then some id else none := by
  rw [scope?, trail, List.reverse_singleton, List.find?_singleton]

theorem scope?_cons {child : NodeId} {i : Nat} (hc : (ast.children id)[i]? = some child)
    (path : List Nat) :
    ast.scope? id (i :: path) =
      (ast.scope? child path).or (if ast.opensScope id then some id else none) := by
  rw [scope?, trail_cons hc, List.reverse_cons, List.find?_append, List.find?_singleton, scope?]

theorem opensScope_of_get? {n : Node} (hn : ast.get? id = some n) :
    ast.opensScope id = n.kind.poolKind?.isSome := by
  unfold opensScope
  rw [hn, Option.any_some, NodeKind.opensScope_eq]

theorem opensScope_of_scope? {path : List Nat} {scope : NodeId}
    (h : ast.scope? root path = some scope) : ast.opensScope scope := List.find?_some h

/-- Below a scope every node has a nearest one. -/
theorem exists_scope? (hroot : ast.opensScope root) (path : List Nat) :
    ∃ scope, ast.scope? root path = some scope := by
  rw [← Option.isSome_iff_exists, scope?, List.find?_isSome]
  refine ⟨root, List.mem_reverse.mpr ?_, hroot⟩
  cases path with
  | nil => exact List.mem_singleton_self root
  | cons i path =>
    rw [trail]
    split <;> exact List.mem_cons_self

/-- Induction over the trees that an arena shows, next to each other and below each other. -/
@[elab_as_elim]
theorem forest_induct {motive : (os : List Outline) → (∀ o ∈ os, ast.Shows o) → Prop}
    (nil : motive [] (by simp))
    (cons : ∀ n children os (hn : ast.get? n.id = some n)
      (hk : n.kind.children = children.map Outline.id) (hs : ∀ o ∈ children, ast.Shows o)
      (hos : ∀ o ∈ os, ast.Shows o), motive children hs → motive os hos →
      motive (.node n children :: os) (List.forall_mem_cons.mpr ⟨.node hn hk hs, hos⟩)) :
    ∀ (os : List Outline) (h : ∀ o ∈ os, ast.Shows o), motive os h
  | [], _ => nil
  | .missing id :: os, h => by cases h _ List.mem_cons_self
  | .node n children :: os, h => by
    have hos := (List.forall_mem_cons.mp h).2
    cases h _ List.mem_cons_self with
    | node hn hk hs =>
      exact cons n children os hn hk hs hos (forest_induct nil cons children hs)
        (forest_induct nil cons os hos)

end Ast

namespace Resolve

/-- The pool that a node belongs to, where `outer` is the pool around it, and the pools then. -/
def enter (kind : NodeKind) (outer : PoolId) (pools : Pools) : PoolId × Pools :=
  match kind.poolKind? with
  | some poolKind => pools.create poolKind
  | none => (outer, pools)

/-- What the walk over these trees attaches, node by node, and the pools it leaves. -/
inductive Attaches : (outer : PoolId) → List Outline → Pools → List (Node × PoolId) → Pools → Prop
    where
  | nil {outer : PoolId} {pools : Pools} : Attaches outer [] pools [] pools
  | node {outer : PoolId} {n : Node} {children os : List Outline} {pools inner last : Pools}
      {log log' : List (Node × PoolId)} :
      Attaches (enter n.kind outer pools).1 children (enter n.kind outer pools).2 log inner →
      Attaches outer os inner log' last →
      Attaches outer (.node n children :: os) pools
        ((n, (enter n.kind outer pools).1) :: (log ++ log')) last

/-- The state with these nodes attached and the pools replaced. -/
def State.after (s : State) (log : List (Node × PoolId)) (pools : Pools) : State :=
  { s with
    facts := { s.facts with pools := s.facts.pools.insertAll (log.map fun e => (e.1.id, e.2)) }
    pools }

/-- The state in which the children of a node are visited. -/
def State.below (s : State) (n : Node) (outer : PoolId) : State where
  stack := if n.kind.opensScope then (enter n.kind outer s.pools).1 :: s.stack else s.stack
  current := some n
  facts := s.facts.insert .pool n.id (enter n.kind outer s.pools).1
  pools := (enter n.kind outer s.pools).2

variable {source : Nat} {n : Node} {outer : PoolId} {s : State}

/-- What `enter` does to the pools when a scope opens. -/
theorem get?_enter_self {poolKind : PoolKind} (hk : n.kind.poolKind? = some poolKind)
    (outer : PoolId) (pools : Pools) :
    (enter n.kind outer pools).2.get? (enter n.kind outer pools).1 =
      some { id := (enter n.kind outer pools).1, kind := poolKind } := by
  unfold enter
  rw [hk]
  exact (Arena.get?_insert _ _ _).trans (if_pos rfl)

theorem State.after_after (s : State) (log log' : List (Node × PoolId)) (inner last : Pools) :
    (s.after log inner).after log' last = s.after (log ++ log') last := by
  simp only [State.after, SideTable.insertAll, List.map_append, List.foldl_append]

/-- The children are visited with the pool of their parent on top of the stack. -/
theorem State.exists_stack_below (s : State) (n : Node) {rest : List PoolId}
    (hs : s.stack = outer :: rest) :
    ∃ rest', (s.below n outer).stack = (enter n.kind outer s.pools).1 :: rest' := by
  cases hk : n.kind.poolKind? with
  | none =>
    refine ⟨rest, ?_⟩
    unfold State.below
    rw [NodeKind.opensScope_eq, enter, hk]
    exact hs
  | some poolKind =>
    refine ⟨s.stack, ?_⟩
    unfold State.below
    rw [NodeKind.opensScope_eq, hk]
    rfl

/-! ## The walk -/

theorem node_of_poolKind? {poolKind : PoolKind} (h : n.kind.poolKind? = some poolKind)
    (below : Walk State Diagnostic) :
    (visitor source).node n below = inScope poolKind below := by
  simp only [visitor]
  split
  · next hk =>
    rw [hk] at h
    cases h
    rfl
  · next hk =>
    rw [hk] at h
    cases h
    rfl
  all_goals simp_all [NodeKind.poolKind?]

theorem node_of_inner (h : n.kind.poolKind? = none) (hread : n.kind ≠ .error)
    (below : Walk State Diagnostic) : (visitor source).node n below = below := by
  simp only [visitor]
  split
  · next hk =>
    rw [hk] at h
    cases h
  · next hk =>
    rw [hk] at h
    cases h
  · next hk => exact absurd hk hread
  · rfl

theorem around_of_scope (id : NodeId) (h : n.kind.opensScope = true)
    (below : Walk State Diagnostic) :
    (visitor source).around id (some n) below = within n below := by
  simp only [visitor]
  exact if_pos h

theorem around_of_inner (id : NodeId) (h : n.kind.opensScope = false) {rest : List PoolId}
    (hs : s.stack = outer :: rest) (below : Walk State Diagnostic) :
    (visitor source).around id (some n) below s = within n below (attach outer n.id s) := by
  have hclosed : ¬ n.kind.opensScope = true := by rw [h]; exact Bool.false_ne_true
  simp only [visitor]
  rw [if_neg hclosed]
  simp only [hs]

/-- Visiting a node attaches it, visits what is below it, and comes back. -/
theorem visitTree_node (hread : n.kind ≠ .error)
    (hstack : n.kind.poolKind? = none → ∃ rest, s.stack = outer :: rest)
    {children : List Outline} {log : List (Node × PoolId)} {pools : Pools}
    (hbelow : (visitor source).visitTrees children (s.below n outer) =
      (.ok (), (s.below n outer).after log pools)) :
    (visitor source).visitTree (.node n children) s =
      (.ok (), s.after ((n, (enter n.kind outer s.pools).1) :: log) pools) := by
  rw [Visitor.visitTree]
  cases hk : n.kind.poolKind? with
  | none =>
    obtain ⟨rest, hstack⟩ := hstack hk
    have hopens := NodeKind.opensScope_eq_false.mpr hk
    have henter : enter n.kind outer s.pools = (outer, s.pools) := by rw [enter, hk]
    have hstate : State.withCurrent (some n) (attach outer n.id s) = s.below n outer := by
      simp only [State.below, henter, hopens]
      rfl
    rw [node_of_inner hk hread, around_of_inner n.id hopens hstack, within, Walk.bracket,
      Walk.enclosed, hstate, hbelow]
    simp only [State.below, henter, hopens]
    rfl
  | some poolKind =>
    have hopens := NodeKind.opensScope_eq_true hk
    have henter : enter n.kind outer s.pools = s.pools.create poolKind := by rw [enter, hk]
    have hstate : openScope poolKind (State.withCurrent (some n) s) = s.below n outer := by
      simp only [State.below, henter, hopens]
      rfl
    rw [node_of_poolKind? hk, around_of_scope n.id hopens, within, Walk.bracket, Walk.enclosed,
      inScope, Walk.enclosed, hstate, hbelow]
    simp only [State.below, henter, hopens]
    rfl

/--
The walk over trees that were read and are all there succeeds under any open pool, and does what
`Attaches` says.
-/
theorem visitTrees_eq {ast : Ast} {os : List Outline} (hs : ∀ o ∈ os, ast.Shows o)
    (hread : ∀ n ∈ os.flatMap Outline.nodes, n.kind ≠ .error) {rest : List PoolId}
    (hstack : s.stack = outer :: rest) :
    ∃ log pools, Attaches outer os s.pools log pools ∧
      (visitor source).visitTrees os s = (.ok (), s.after log pools) := by
  induction os, hs using Ast.forest_induct generalizing outer rest s with
  | nil => exact ⟨[], s.pools, .nil, rfl⟩
  | cons n children os hn hk hcs hos ihc iho =>
    rw [List.flatMap_cons, Outline.nodes_node, List.cons_append, List.forall_mem_cons,
      List.forall_mem_append] at hread
    obtain ⟨hreadn, hreadc, hreado⟩ := hread
    obtain ⟨rest', hbelow⟩ := s.exists_stack_below n hstack
    obtain ⟨log, inner, hlog, hvisit⟩ := ihc hreadc hbelow
    obtain ⟨log', last, hlog', hvisit'⟩ :=
      iho (s := s.after ((n, (enter n.kind outer s.pools).1) :: log) inner) hreado hstack
    refine ⟨_, last, .node hlog hlog', ?_⟩
    rw [Visitor.visitTrees, Walk.andThen, visitTree_node hreadn (fun _ => ⟨rest, hstack⟩) hvisit]
    simp only [hvisit', State.after_after, List.cons_append]

/-- A tree whose top opens a scope needs no open pool; the one around it does not matter. -/
theorem visitTree_eq {ast : Ast} {o : Outline} (hs : ast.Shows o)
    (hread : ∀ n ∈ o.nodes, n.kind ≠ .error) (hopens : ast.opensScope o.id) (outer : PoolId)
    (s : State) :
    ∃ log pools, Attaches outer [o] s.pools log pools ∧
      (visitor source).visitTree o s = (.ok (), s.after log pools) := by
  cases hs with
  | @node n children hn _ hs =>
    have hkind : n.kind.poolKind?.isSome := by rw [← Ast.opensScope_of_get? hn]; exact hopens
    have hstack : (s.below n outer).stack = (enter n.kind outer s.pools).1 :: s.stack := by
      unfold State.below
      rw [NodeKind.opensScope_eq]
      exact if_pos hkind
    rw [Outline.nodes_node, List.forall_mem_cons] at hread
    obtain ⟨log, pools, hlog, hvisit⟩ := visitTrees_eq hs hread.2 hstack
    refine ⟨_, pools, .node hlog .nil, ?_⟩
    rw [List.append_nil]
    refine visitTree_node hread.1 (fun hnone => ?_) hvisit
    rw [hnone] at hkind
    cases hkind

/-! ## What is attached -/

/-- The pool was attached to this scope or, where there is none, comes from outside. -/
def PoolOf (log : List (Node × PoolId)) (outer : PoolId) (scope? : Option NodeId) (pool : PoolId) :
    Prop :=
  match scope? with
  | some scope => ∃ n, n.id = scope ∧ (n, pool) ∈ log
  | none => pool = outer

theorem PoolOf.mono {log log' : List (Node × PoolId)} {scope? : Option NodeId} {pool : PoolId}
    (h : PoolOf log outer scope? pool) (hsub : log ⊆ log') : PoolOf log' outer scope? pool := by
  cases scope? with
  | none => exact h
  | some scope =>
    obtain ⟨n, hn, hmem⟩ := h
    exact ⟨n, hn, hsub hmem⟩

theorem PoolOf.or {log : List (Node × PoolId)} {inner pool : PoolId} {a b : Option NodeId}
    (h : PoolOf log inner a pool) (h' : PoolOf log outer b inner) :
    PoolOf log outer (a.or b) pool := by
  cases a with
  | some scope => exact h
  | none =>
    obtain rfl : pool = inner := h
    exact h'

/-- A node is in the pool that its children start from. -/
theorem poolOf_self {ast : Ast} (hn : ast.get? n.id = some n) (outer : PoolId) (pools : Pools)
    (log : List (Node × PoolId)) :
    PoolOf ((n, (enter n.kind outer pools).1) :: log) outer
      (if ast.opensScope n.id then some n.id else none) (enter n.kind outer pools).1 := by
  rw [Ast.opensScope_of_get? hn]
  cases hk : n.kind.poolKind? with
  | none => rw [enter, hk]; rfl
  | some poolKind => exact ⟨n, rfl, List.mem_cons_self⟩

namespace Attaches

variable {ast : Ast} {os : List Outline} {pools last : Pools} {log : List (Node × PoolId)}

theorem map_fst (h : Attaches outer os pools log last) :
    log.map Prod.fst = os.flatMap Outline.nodes := by
  induction h with
  | nil => rfl
  | node _ _ ih ih' =>
    rw [List.map_cons, List.map_append, ih, ih', List.flatMap_cons, Outline.nodes_node,
      List.cons_append]

/-- Entering a node leaves the pools that are there. -/
theorem get?_enter {pool : PoolId} {p : Pool} (h : pools.get? pool = some p) (kind : NodeKind)
    (outer : PoolId) : (enter kind outer pools).2.get? pool = some p := by
  unfold enter
  split
  · exact Arena.get?_insert_of_some h
  · exact h

theorem keeps (h : Attaches outer os pools log last) {pool : PoolId} {p : Pool}
    (hp : pools.get? pool = some p) : last.get? pool = some p := by
  induction h with
  | nil => exact hp
  | node _ _ ih ih' => exact ih' (ih (get?_enter hp _ _))

/-- Where no scope opens the pools stay. -/
theorem eq_of_inner (h : Attaches outer os pools log last)
    (hinner : ∀ e ∈ log, e.1.kind.poolKind? = none) : last = pools := by
  induction h with
  | nil => rfl
  | node _ _ ih ih' =>
    obtain ⟨hn, hrest⟩ := List.forall_mem_cons.mp hinner
    obtain ⟨hlog, hlog'⟩ := List.forall_mem_append.mp hrest
    rw [ih' hlog', ih hlog, enter, hn]

/-- The pools that were opened. -/
def opened (log : List (Node × PoolId)) : List PoolId :=
  (log.filter (·.1.kind.opensScope)).map Prod.snd

theorem opened_append (log log' : List (Node × PoolId)) :
    opened (log ++ log') = opened log ++ opened log' := by
  unfold opened
  rw [List.filter_append, List.map_append]

theorem keys_enter (n : Node) (outer : PoolId) (pools : Pools) :
    (enter n.kind outer pools).2.keys.Perm
      (opened [(n, (enter n.kind outer pools).1)] ++ pools.keys) := by
  cases hk : n.kind.poolKind? with
  | none => simp [opened, enter, NodeKind.opensScope_eq, hk]
  | some poolKind =>
    simp only [opened, enter, NodeKind.opensScope_eq, hk, List.filter_singleton,
      Option.isSome_some]
    exact Arena.keys_insert _ _

/-- The pools at the end are those from before and those opened, each of them once. -/
theorem keys (h : Attaches outer os pools log last) :
    last.keys.Perm (opened log ++ pools.keys) := by
  induction h with
  | nil => exact .refl _
  | @node outer n children os pools inner last log log' _ _ ih ih' =>
    have hcons : ∀ e : Node × PoolId, opened (e :: (log ++ log')) =
        opened [e] ++ (opened log ++ opened log') := by
      intro e
      rw [← opened_append, ← opened_append]
      rfl
    have hinner := ih.trans ((keys_enter n outer pools).append_left (opened log))
    have hlast := ih'.trans (hinner.append_left (opened log'))
    rw [hcons]
    refine hlast.trans (List.perm_iff_count.mpr fun pool => ?_)
    simp only [List.count_append]
    omega

theorem mem_opened {n : Node} {pool : PoolId} (hmem : (n, pool) ∈ log)
    (hopens : n.kind.opensScope) : pool ∈ opened log :=
  List.mem_map.mpr ⟨(n, pool), List.mem_filter.mpr ⟨hmem, hopens⟩, rfl⟩

/-- A pool that was opened was not there before. -/
theorem get?_eq_none_of_mem_opened (h : Attaches outer os pools log last) {pool : PoolId}
    (hmem : pool ∈ opened log) : pools.get? pool = none := by
  have hnodup := h.keys.nodup_iff.mp (Arena.keys_nodup last)
  cases hp : pools.get? pool with
  | none => rfl
  | some p =>
    have hkey : pool ∈ pools.keys := Arena.mem_keys.mpr ⟨p, hp⟩
    exact absurd hkey ((List.nodup_append'.mp hnodup).2.2 hmem)

/-- No two scopes open the same pool. -/
theorem eq_of_opened (h : Attaches outer os pools log last) {e e' : Node × PoolId} (he : e ∈ log)
    (he' : e' ∈ log) (hopens : e.1.kind.opensScope) (hopens' : e'.1.kind.opensScope)
    (heq : e.2 = e'.2) : e = e' := by
  have hnodup := h.keys.nodup_iff.mp (Arena.keys_nodup last)
  have hopened : (opened log).Nodup := (List.nodup_append'.mp hnodup).1
  exact List.inj_on_of_nodup_map hopened (List.mem_filter.mpr ⟨he, hopens⟩)
    (List.mem_filter.mpr ⟨he', hopens'⟩) heq

/-- A scope has the pool of its own kind, without slots. -/
theorem get?_opened (h : Attaches outer os pools log last) {n : Node} {pool : PoolId}
    (hmem : (n, pool) ∈ log) {poolKind : PoolKind} (hk : n.kind.poolKind? = some poolKind) :
    last.get? pool = some { id := pool, kind := poolKind } := by
  induction h with
  | nil => cases hmem
  | @node outer m children os pools inner last log log' hc ho ih ih' =>
    rcases List.mem_cons.mp hmem with heq | hmem
    · cases heq
      exact ho.keeps (hc.keeps (get?_enter_self hk outer pools))
    · rcases List.mem_append.mp hmem with hmem | hmem
      · exact ho.keeps (ih hmem)
      · exact ih' hmem

/-- Every node is in the pool of its nearest scope, and without one in the pool around the trees. -/
theorem mem_of_at? (h : Attaches outer os pools log last) (hs : ∀ o ∈ os, ast.Shows o)
    {o : Outline} (ho : o ∈ os) {path : List Nat} {id : NodeId} (hp : ast.at? o.id path = some id) :
    ∃ n pool, n.id = id ∧ (n, pool) ∈ log ∧ PoolOf log outer (ast.scope? o.id path) pool := by
  induction h generalizing o path with
  | nil => cases ho
  | @node outer n children os pools inner last log log' _ _ ih ih' =>
    obtain ⟨hn, hos⟩ := List.forall_mem_cons.mp hs
    rcases List.mem_cons.mp ho with rfl | ho
    · cases hn with
      | node hn hk hcs =>
        have hself := poolOf_self hn outer pools (log ++ log')
        cases path with
        | nil =>
          obtain rfl := Option.some.inj hp
          refine ⟨n, _, rfl, List.mem_cons_self, ?_⟩
          rwa [Outline.id, Ast.scope?_nil]
        | cons i path =>
          obtain ⟨o, ho, hc, hp⟩ := Ast.exists_child_of_at? hn hk hp
          obtain ⟨m, pool, hm, hmem, hscope⟩ := ih hcs (List.mem_of_getElem? ho) hp
          have hsub : log ⊆ (n, (enter n.kind outer pools).1) :: (log ++ log') :=
            fun e he => List.mem_cons_of_mem _ (List.mem_append_left _ he)
          refine ⟨m, pool, hm, hsub hmem, ?_⟩
          rw [Outline.id, Ast.scope?_cons hc]
          exact (hscope.mono hsub).or hself
    · obtain ⟨m, pool, hm, hmem, hscope⟩ := ih' hos ho hp
      have hsub : log' ⊆ (n, (enter n.kind outer pools).1) :: (log ++ log') :=
        fun e he => List.mem_cons_of_mem _ (List.mem_append_right _ he)
      exact ⟨m, pool, hm, hsub hmem, hscope.mono hsub⟩

end Attaches

end Resolve

end FlatScope
