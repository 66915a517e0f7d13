import FlatScope.Proofs.Interruption
import FlatScope.Proofs.ParsedTree

/-!
# Open pools

Whenever resolution comes to a place, the pools on its stack are those of the units and functions
above that place (`Tracks`): what was opened elsewhere has been closed again, whether the run will
fail or not. In a program that was read they are two at most (`length_opens_le`), for a unit holds
classes, a class holds functions, and a function holds neither.
-/

namespace FlatScope

/-! ## How deep scopes can be inside each other -/

/-- The most scopes on a way down from such a node in a program, the node included. -/
def NodeKind.depth : NodeKind → Nat
  | compUnit _ => 2
  | classDecl .. | definitions _ | function .. => 1
  | _ => 0

/-- The same for what a reference may lead to. -/
def Role.depth : Role → Nat
  | unit => 2
  | classDecl | definitions | member => 1
  | _ => 0

theorem NodeKind.depth_le (kind : NodeKind) : kind.depth ≤ 2 := by
  unfold depth
  split <;> decide

theorem Role.depth_of_admits {role : Role} {kind : NodeKind} (h : role.admits kind) :
    kind.depth ≤ role.depth := by
  unfold admits at h
  split at h <;> simp_all [NodeKind.depth, depth]

/-- A scope takes one of its own. -/
theorem NodeKind.depth_demand {kind : NodeKind} {d : NodeId × Role} (hd : d ∈ kind.demands) :
    (if kind.opensScope then 1 else 0) + d.2.depth ≤ kind.depth := by
  unfold demands at hd
  split at hd <;> simp [depth, Role.depth, opensScope] at hd ⊢ <;> grind [Role.depth]

namespace Ast

variable {ast : Ast} {root : NodeId} {o : Outline} {path : List Nat} {above : List Spot} {p : Place}

/-- Where every reference leads to what its field asks for, the kind of the top tells how many
scopes can be above a place. -/
theorem length_opens_le (ho : ast.Unfolds o)
    (hdemands : ∀ id n, ast.get? id = some n → ∀ d ∈ n.kind.demands,
      ∃ m, ast.get? d.1 = some m ∧ d.2.admits m.kind)
    {bound : Nat} (htop : (above.filter Spot.opens).length +
      (ast.get? o.id).elim 0 (·.kind.depth) ≤ bound)
    (hp : p ∈ o.places path above) : (p.above.filter Spot.opens).length ≤ bound := by
  induction ho generalizing path above with
  | missing hid =>
    obtain rfl := List.mem_singleton.mp hp
    exact Nat.le_of_add_right_le htop
  | @node n children hn hk hs ih =>
    rw [Outline.places_node] at hp
    rcases List.mem_cons.mp hp with rfl | hp
    · exact Nat.le_of_add_right_le htop
    · obtain ⟨j, o, ho, hp⟩ := Outline.mem_placesOfAll.mp hp
      have ho := List.mem_of_getElem? ho
      refine ih o ho ?_ hp
      have hchild : o.id ∈ n.kind.demands.map Prod.fst := by
        rw [NodeKind.demands_map_fst, hk]
        exact List.mem_map_of_mem ho
      obtain ⟨d, hd, hdid⟩ := List.mem_map.mp hchild
      obtain ⟨m, hm, hadmits⟩ := hdemands n.id n hn d hd
      have hrole := NodeKind.depth_demand hd
      have hkind := Role.depth_of_admits hadmits
      rw [show (Outline.node n children).id = n.id from rfl, hn, Option.elim_some] at htop
      rw [← hdid, hm, Option.elim_some, List.filter_cons]
      show List.length (if n.kind.opensScope then _ else _) + m.kind.depth ≤ bound
      split
      · next hopens =>
        rw [if_pos hopens] at hrole
        rw [List.length_cons]
        omega
      · omega

/-- The nodes above a place are met before it. -/
theorem exists_mem_before {before after : List Place}
    (hsplit : ast.places root = before ++ p :: after) {s : Spot} (hs : s ∈ p.above) :
    ∃ q ∈ before, q.path = s.path ∧ q.node? = some s.node := by
  have hcut : ast.places root = (before ++ [p]) ++ after := by simp [hsplit]
  have hlast : p ∈ before ++ [p] := List.mem_append_right _ (List.mem_singleton_self p)
  have hp : p ∈ ast.places root := hcut ▸ List.mem_append_left after hlast
  rcases Outline.mem_above hp hs with hs | ⟨hlt, -, q, hq, hpath, hnode⟩
  · cases hs
  · rw [← hpath] at hlt
    rcases List.mem_append.mp (mem_of_lt hcut hlast hq hlt) with hq | hq
    · exact ⟨q, hq, hpath, hnode⟩
    · obtain rfl := List.mem_singleton.mp hq
      exact absurd hlt (List.lt_irrefl _)

end Ast

namespace Resolve

variable {ast : Ast} {root : NodeId} {n : Node} {p : Place}

/-- What the stack holds on coming to a place, where `poolOf` is the pool of each scope. -/
structure Tracks (start : Pools) (poolOf : List Nat → PoolId) (p : Place) (s : State) : Prop where
  /-- the pools of the scopes above, the innermost first, and no others -/
  stack_eq : s.stack = (p.above.filter Spot.opens).map (poolOf ·.path)
  /-- The pool of a scope is the one that is created when the walk comes to it; -/
  create_eq : ∀ n kind, p.node? = some n → n.kind.poolKind? = some kind →
    (s.pools.create kind).1 = poolOf p.path
  /-- it was not there before the run, and has no slots yet, -/
  opened : ∀ spot ∈ p.above, ∀ kind, spot.node.kind.poolKind? = some kind →
    start.get? (poolOf spot.path) = none ∧
      s.pools.get? (poolOf spot.path) = some { id := poolOf spot.path, kind }
  /-- and no two scopes have the same. -/
  distinct : ∀ spot ∈ p.above, ∀ spot' ∈ p.above, spot.opens = true → spot'.opens = true →
    poolOf spot.path = poolOf spot'.path → spot = spot'

theorem Record.poolOf_foldl_meet {ps : List Place} {path : List Nat}
    (hne : ∀ p ∈ ps, path ≠ p.path) (r : Record) :
    (ps.foldl Record.meet r).poolOf path = r.poolOf path := by
  induction ps generalizing r with
  | nil => rfl
  | cons p ps ih =>
    obtain ⟨hp, hps⟩ := List.forall_mem_cons.mp hne
    rw [List.foldl_cons, ih hps, r.poolOf_meet_of_ne hp]

/-- A run without a complaint has met all places. -/
theorem eq_foldl_of_each_act {source : Nat} {ps : List Place} {r r' : Record}
    (h : Walk.each (act source) ps r = (.ok (), r')) : r' = ps.foldl Record.meet r := by
  induction ps generalizing r with
  | nil =>
    cases h
    rfl
  | cons p ps ih =>
    cases hp : act source p r with
    | mk result between =>
      have hmeet : r.meet p = between := congrArg Prod.snd hp
      rw [Walk.each] at h
      cases result with
      | error e =>
        rw [Walk.andThen_of_error hp] at h
        cases h
      | ok _ =>
        rw [Walk.andThen_of_ok hp] at h
        rw [List.foldl_cons, hmeet]
        exact ih h

/-- The state of a run that has come to a place. -/
theorem tracks_of_met (hn : ast.get? root = some n) (hopens : n.kind.opensScope = true)
    {before after : List Place} (hsplit : ast.places root = before ++ p :: after)
    (facts : Annotations) (r : Record) :
    Tracks r.pools ((ast.places root).foldl Record.meet r).poolOf p
      ((before.foldl Record.meet r).state facts p.above) := by
  have hsorted : (ast.places root).Pairwise fun p q => p.path < q.path :=
    Outline.pairwise_places [] [] (ast.outline root)
  have hsub : before ⊆ ast.places root := hsplit ▸ List.subset_append_left _ _
  have hmet := met_foldl (Ast.pairwise_of_prefix hsplit)
    (fun q hq => Ast.deeper_of_mem_places (hsub hq))
    (fun q hq => Ast.scope?_isSome hn hopens (hsub hq)) r
  rw [hsplit, List.pairwise_append, List.pairwise_cons] at hsorted
  obtain ⟨-, ⟨hafter, -⟩, hbefore⟩ := hsorted
  rw [hsplit, List.foldl_append]
  generalize before.foldl Record.meet r = r' at hmet
  -- the pools of the scopes above stay as the run goes on
  have hstay : ∀ spot ∈ p.above, ((p :: after).foldl Record.meet r').poolOf spot.path =
      r'.poolOf spot.path := by
    intro spot hspot
    obtain ⟨q, hq, hpath, -⟩ := Ast.exists_mem_before hsplit hspot
    refine Record.poolOf_foldl_meet (fun q' hq' heq => ?_) r'
    have hlt := hbefore q hq q' hq'
    rw [hpath, heq] at hlt
    exact List.lt_irrefl _ hlt
  refine ⟨?_, ?_, ?_, ?_⟩
  · exact List.map_congr_left fun spot hspot => (hstay spot (List.mem_of_mem_filter hspot)).symm
  · intro m kind hm hk
    have hscope := Place.scope?_of_opens hm (NodeKind.opensScope_eq_true hk)
    have hlater : ∀ q ∈ after, p.path ≠ q.path :=
      fun q hq heq => List.lt_irrefl _ (heq ▸ hafter q hq)
    rw [List.foldl_cons, Record.poolOf_foldl_meet hlater, Record.meet_eq hm hscope,
      Record.poolOf_enter_self, enter, hk]
    rfl
  · intro spot hspot kind hk
    obtain ⟨q, hq, hpath, hnode⟩ := Ast.exists_mem_before hsplit hspot
    have hqopens : q.opens = true := (Place.opens_eq hnode).trans (NodeKind.opensScope_eq_true hk)
    rw [hstay spot hspot, ← hpath]
    exact ⟨hmet.get?_eq_none hq hqopens, hmet.get?_opened q hq _ kind hnode hk⟩
  · intro spot hspot spot' hspot' hopens hopens' heq
    obtain ⟨q, hq, hpath, hnode⟩ := Ast.exists_mem_before hsplit hspot
    obtain ⟨q', hq', hpath', hnode'⟩ := Ast.exists_mem_before hsplit hspot'
    rw [hstay spot hspot, hstay spot' hspot', ← hpath, ← hpath'] at heq
    obtain rfl := hmet.eq_of_poolOf_eq hq hq' ((Place.opens_eq hnode).trans hopens)
      ((Place.opens_eq hnode').trans hopens') heq
    cases spot
    cases spot'
    simp_all

/-- Whenever `traverse`, the visit in question, comes to a place below a unit or a function, its
stack is as `Tracks` says, in a run that will fail as well. In a program that was read there are
never more than two pools on it. -/
theorem traverse_stack :
    (∀ (ast : Ast) (root : NodeId) (n : Node), ast.get? root = some n →
      n.kind.opensScope = true → ast.Acyclic root → ∀ (facts : Annotations) (pools : Pools),
        ∃ poolOf, (visitor ast.source).Always (Tracks pools poolOf) ast root
          { facts, pools }) ∧
    ∀ (source : Nat) (text : String) (ast : Ast) (unit : NodeId),
      Ast.parse .unit source text = .ok (ast, unit) → ∀ (root : NodeId) (facts : Annotations)
        (pools : Pools), (visitor ast.source).Always (fun _ s => s.stack.length ≤ 2) ast root
          { facts, pools } := by
  constructor
  · intro ast root n hn hopens hacyclic facts pools
    let start : Record := ⟨facts.pools, pools, fun _ => .null⟩
    let poolOf := ((ast.places root).foldl Record.meet start).poolOf
    have halways : (visitor ast.source).Always (Tracks pools poolOf) ast root
        (start.state facts []) := by
      apply (follows_act ast.source facts).always hacyclic.unfolds_outline
      intro before p after r hsplit hrun
      obtain rfl := eq_foldl_of_each_act hrun
      exact tracks_of_met hn hopens hsplit facts start
    exact ⟨poolOf, halways⟩
  · intro source text ast unit h root facts pools
    have htree := Ast.parse_isTree h
    have ho := (Ast.Rising.acyclic htree.children_first root).unfolds_outline
    let start : Record := ⟨facts.pools, pools, fun _ => .null⟩
    have halways : (visitor ast.source).Always (fun _ s => s.stack.length ≤ 2) ast root
        (start.state facts []) := by
      apply (follows_act ast.source facts).always ho
      intro before p after r hsplit _
      have hp : p ∈ ast.places root := hsplit ▸ List.mem_append_right _ List.mem_cons_self
      show (((p.above.filter Spot.opens).map _).length ≤ 2)
      rw [List.length_map]
      apply Ast.length_opens_le ho htree.demands_met _ hp
      cases ast.get? (ast.outline root).id with
      | none => simp
      | some m => simpa using m.kind.depth_le
    exact halways

/-- A unit with a function that is given a function in the place of its type, which holds nothing
that is there; and a program. -/
theorem traverse_stack_nested :
    (∃ (ast : Ast) (root : NodeId) (n : Node), ast.get? root = some n ∧
      n.kind.opensScope = true ∧ ast.Acyclic root ∧
      ∃ poolOf, (visitor ast.source).Always (Tracks .empty poolOf) ast root
        { facts := .empty, pools := .empty }) ∧
    ∃ (ast : Ast) (unit : NodeId),
      Ast.parse .unit 0 "class A { int f(int x) { return x; } }" = .ok (ast, unit) ∧
      (visitor ast.source).Always (fun _ s => s.stack.length ≤ 2) ast unit
        { facts := .empty, pools := .empty } := by
  constructor
  · let ast := ((((Ast.empty 0).add (.function .null "g" .null .null) ⟨0, 0, 1⟩).2.add
      (.function (.at 1 1) "f" .null .null) ⟨0, 0, 2⟩).2.add (.compUnit [.at 2 1]) ⟨0, 0, 3⟩).2
    have hacyclic : ast.Acyclic (.at 3 1) :=
      ((((Ast.rising_empty 0).add (by decide)).add (by decide)).add (by decide)).acyclic _
    let unit : Node := ⟨.at 3 1, .compUnit [.at 2 1], ⟨0, 0, 3⟩⟩
    exact ⟨ast, .at 3 1, unit, rfl, rfl, hacyclic,
      traverse_stack.1 ast (.at 3 1) unit rfl rfl hacyclic .empty .empty⟩
  · have hok : (Ast.parse .unit 0 "class A { int f(int x) { return x; } }").isOk := by
      decide +kernel
    cases h : Ast.parse .unit 0 "class A { int f(int x) { return x; } }" with
    | error e =>
      rw [h] at hok
      cases hok
    | ok r => exact ⟨r.1, r.2, rfl, traverse_stack.2 0 _ r.1 r.2 h r.2 .empty .empty⟩

end Resolve

end FlatScope
