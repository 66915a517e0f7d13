import Mathlib.Data.List.Induction
import FlatScope.Proofs.Following
import FlatScope.Proofs.Scoping

/-!
# Resolution place by place

Resolving is meeting the places below the top one after the other (`traverse_eq`): at each the pool
of its nearest scope is attached, which a scope has just opened, and the first place with a
complaint is the last. `Record` is what a run works on with the pool of every place met so far.
-/

namespace FlatScope

/-- A scope opens at this node. -/
def Spot.opens (s : Spot) : Bool := s.node.kind.opensScope

namespace Place

variable {p : Place} {n : Node}

/-- The path to the nearest scope of a place, its own node included. -/
def scope? (p : Place) : Option (List Nat) := (p.spots.find? Spot.opens).map (·.path)

theorem spots_eq (hp : p.node? = some n) : p.spots = ⟨p.path, n⟩ :: p.above := by
  unfold spots
  rw [hp]
  rfl

theorem scope?_of_opens (hp : p.node? = some n) (h : n.kind.opensScope = true) :
    p.scope? = some p.path := by
  have hopens : Spot.opens ⟨p.path, n⟩ = true := h
  unfold scope?
  rw [spots_eq hp, List.find?_cons_of_pos hopens]
  rfl

theorem scope?_of_inner (hp : p.node? = some n) (h : n.kind.opensScope = false) :
    p.scope? = (p.above.find? Spot.opens).map (·.path) := by
  have hinner : ¬ Spot.opens ⟨p.path, n⟩ = true := by
    show ¬ n.kind.opensScope = true
    rw [h]
    exact Bool.false_ne_true
  unfold scope?
  rw [spots_eq hp, List.find?_cons_of_neg hinner]

/-- A scope opens at this place. -/
def opens (p : Place) : Bool := p.node?.any (·.kind.opensScope)

theorem opens_eq (hp : p.node? = some n) : p.opens = n.kind.opensScope := by
  unfold opens
  rw [hp, Option.any_some]

/-- The nodes above come first in the order of paths. -/
def Deeper (p : Place) : Prop := ∀ s ∈ p.above, s.path < p.path

theorem scope?_eq_some {scope : List Nat} (h : p.scope? = some scope) :
    ∃ s ∈ p.spots, s.opens = true ∧ s.path = scope := by
  obtain ⟨s, hs, rfl⟩ := Option.map_eq_some_iff.mp h
  exact ⟨s, List.mem_of_find?_eq_some hs, List.find?_some hs, rfl⟩

/-- The nearest scope is the place itself or further up. -/
theorem Deeper.scope_cases (h : p.Deeper) {scope : List Nat}
    (hs : p.scope? = some scope) : scope = p.path ∨ scope < p.path := by
  obtain ⟨s, hmem, -, rfl⟩ := scope?_eq_some hs
  unfold spots at hmem
  rcases List.mem_append.mp hmem with hmem | hmem
  · obtain ⟨n, -, rfl⟩ := Option.map_eq_some_iff.mp (Option.mem_toList.mp hmem)
    exact .inl rfl
  · exact .inr (h s hmem)

end Place

namespace Resolve

/-- What resolution complains about at a place. -/
def complaint? (source : Nat) (p : Place) : Option Diagnostic :=
  match p.node? with
  | none =>
    let (parent, loc) := match p.above.head? with
      | some s => (s.node.kind.name, s.node.loc)
      | none => ("<root>", ⟨source, 0, 0⟩)
    some { defect := .missingNode p.id, loc,
           notes := [⟨"referenced from this `" ++ parent ++ "`", none⟩] }
  | some n =>
    match p.scope? with
    | none => some { defect := .noActiveScope n.kind.name, loc := n.loc }
    | some _ => if n.kind = .error then some { defect := .unparsedNode, loc := n.loc } else none

/-- The pools attached to nodes, the pools there are, and the pool of each place met. -/
structure Record where
  table : SideTable .node PoolId
  pools : Pools
  poolOf : List Nat → PoolId

/-- Attaches a pool to a place: of its own if a scope opens there, else that of `outer`. -/
def Record.enter (r : Record) (path : List Nat) (n : Node) (outer : PoolId) : Record where
  table := r.table.insert n.id (Resolve.enter n.kind outer r.pools).1
  pools := (Resolve.enter n.kind outer r.pools).2
  poolOf := Function.update r.poolOf path (Resolve.enter n.kind outer r.pools).1

/-- Attaches the pool of the nearest scope to the node of a place. -/
def Record.meet (r : Record) (p : Place) : Record :=
  match p.node?, p.scope? with
  | some n, some scope => r.enter p.path n (r.poolOf scope)
  | _, _ => r

/-- The state of a run below these nodes; `facts` holds the other tables. -/
def Record.state (facts : Annotations) (above : List Spot) (r : Record) : State where
  stack := (above.filter Spot.opens).map (r.poolOf ·.path)
  current := above.head?.map (·.node)
  facts := { facts with pools := r.table }
  pools := r.pools

/-- Meets a place and complains about it. -/
def act (source : Nat) (p : Place) : Walk Record Diagnostic := fun r =>
  ((complaint? source p).elim (.ok ()) .error, r.meet p)

/-- The pools of these places stay. -/
def Keeps (above : List Spot) (r r' : Record) : Prop :=
  ∀ s ∈ above, r'.poolOf s.path = r.poolOf s.path

variable {source : Nat} {facts : Annotations} {p : Place} {n : Node} {r : Record}
  {above : List Spot} {outer : PoolId}

theorem Record.meet_eq {scope : List Nat} (hp : p.node? = some n) (hs : p.scope? = some scope) :
    r.meet p = r.enter p.path n (r.poolOf scope) := by
  unfold meet
  rw [hp, hs]

theorem Record.meet_of_missing (hp : p.node? = none) : r.meet p = r := by
  unfold meet
  rw [hp]

theorem Record.meet_of_outside (hs : p.scope? = none) : r.meet p = r := by
  unfold meet
  rw [hs]
  split <;> simp_all

theorem Record.poolOf_enter_self (r : Record) (path : List Nat) (n : Node) (outer : PoolId) :
    (r.enter path n outer).poolOf path = (Resolve.enter n.kind outer r.pools).1 :=
  Function.update_self _ _ _

theorem Record.poolOf_enter_of_ne (r : Record) {path other : List Nat} (hne : other ≠ path)
    (n : Node) (outer : PoolId) : (r.enter path n outer).poolOf other = r.poolOf other :=
  Function.update_of_ne hne _ _

theorem Record.poolOf_meet_of_ne (r : Record) {path : List Nat} (hne : path ≠ p.path) :
    (r.meet p).poolOf path = r.poolOf path := by
  unfold meet
  split
  · exact r.poolOf_enter_of_ne hne _ _
  · rfl

theorem keeps_meet (hne : ∀ s ∈ above, s.path ≠ p.path) (r : Record) :
    Keeps above r (r.meet p) :=
  fun s hs => r.poolOf_meet_of_ne (hne s hs)

/-! ## The walk -/

/-- The pool on top of the stack is that of the nearest scope. -/
theorem head?_stack (facts : Annotations) (r : Record) (above : List Spot) :
    (r.state facts above).stack.head? =
      ((above.find? Spot.opens).map (·.path)).map r.poolOf := by
  unfold Record.state
  rw [List.head?_map, List.head?_filter, Option.map_map]
  rfl

/-- The state at the children of a node. -/
theorem state_enter (facts : Annotations) (r : Record) (outer : PoolId) (n : Node)
    {path : List Nat} (hne : ∀ s ∈ above, s.path ≠ path) :
    (r.enter path n outer).state facts (⟨path, n⟩ :: above) =
      (r.state facts above).below n outer := by
  have hkeeps : (above.filter Spot.opens).map ((r.enter path n outer).poolOf ·.path) =
      (above.filter Spot.opens).map (r.poolOf ·.path) :=
    List.map_congr_left fun s hs => r.poolOf_enter_of_ne (hne s (List.mem_of_mem_filter hs)) n outer
  have hstack : ((r.enter path n outer).state facts (⟨path, n⟩ :: above)).stack =
      ((r.state facts above).below n outer).stack := by
    unfold Record.state State.below
    rw [List.filter_cons]
    show List.map _ (if n.kind.opensScope then _ else _) = if n.kind.opensScope then _ else _
    split
    · rw [List.map_cons, hkeeps, r.poolOf_enter_self]
    · exact hkeeps
  calc (r.enter path n outer).state facts (⟨path, n⟩ :: above)
      = { (r.state facts above).below n outer with
          stack := ((r.enter path n outer).state facts (⟨path, n⟩ :: above)).stack } := rfl
    _ = (r.state facts above).below n outer := by rw [hstack]

/-- Leaving a node whose pool is on top of the stack. -/
theorem state_leave {s : Spot} (h : s.opens = true) (r r' : Record) :
    (r'.state facts (s :: above)).pop.withCurrent (r.state facts above).current =
      r'.state facts above := by
  unfold Record.state
  rw [List.filter_cons, h]
  rfl

theorem state_leave_inner {s : Spot} (h : s.opens = false) (r r' : Record) :
    (r'.state facts (s :: above)).withCurrent (r.state facts above).current =
      r'.state facts above := by
  unfold Record.state
  rw [List.filter_cons, h]
  rfl

theorem around_eq_of_scope {poolKind : PoolKind} (hk : n.kind.poolKind? = some poolKind)
    (outer : PoolId) (below : Walk State Diagnostic) (s : State) :
    (visitor source).around n.id (some n) ((visitor source).node n below) s =
      ((below (s.below n outer)).1,
        (below (s.below n outer)).2.pop.withCurrent s.current) := by
  have hopens := NodeKind.opensScope_eq_true hk
  have hstate : openScope poolKind (State.withCurrent (some n) s) = s.below n outer := by
    unfold State.below
    rw [hopens, enter, hk]
    rfl
  rw [node_of_poolKind? hk, around_of_scope n.id hopens, within, Walk.bracket, Walk.enclosed,
    inScope, Walk.enclosed, hstate]

theorem around_eq_of_inner (hk : n.kind.poolKind? = none) {s : State} {rest : List PoolId}
    (hs : s.stack = outer :: rest) (below : Walk State Diagnostic) :
    (visitor source).around n.id (some n) below s =
      ((below (s.below n outer)).1, (below (s.below n outer)).2.withCurrent s.current) := by
  have hopens := NodeKind.opensScope_eq_false.mpr hk
  have hstate : State.withCurrent (some n) (attach outer n.id s) = s.below n outer := by
    unfold State.below
    rw [hopens, enter, hk]
    rfl
  rw [around_of_inner n.id hopens hs, within, Walk.bracket, Walk.enclosed, hstate]
  rfl

theorem around_of_outside (hk : n.kind.poolKind? = none) {s : State} (hs : s.stack = [])
    (below : Walk State Diagnostic) : (visitor source).around n.id (some n) below s =
      (.error { defect := .noActiveScope n.kind.name, loc := n.loc }, s) := by
  have hopens : ¬ n.kind.opensScope = true := by
    rw [NodeKind.opensScope_eq_false.mpr hk]
    exact Bool.false_ne_true
  simp only [visitor]
  rw [if_neg hopens]
  simp only [hs]

/-- Where no scope opens, the one that is open is the nearest, if there is any. -/
theorem stack_cases (facts : Annotations) (r : Record) (hp : p.node? = some n)
    (hinner : n.kind.opensScope = false) :
    (p.scope? = none ∧ (r.state facts p.above).stack = []) ∨
      ∃ scope rest, p.scope? = some scope ∧
        (r.state facts p.above).stack = r.poolOf scope :: rest := by
  have hhead := head?_stack facts r p.above
  rw [← Place.scope?_of_inner hp hinner] at hhead
  cases hs : p.scope? with
  | none =>
    rw [hs] at hhead
    exact .inl ⟨rfl, List.head?_eq_none_iff.mp hhead⟩
  | some scope =>
    rw [hs] at hhead
    obtain ⟨rest, hrest⟩ := List.head?_eq_some_iff.mp hhead
    exact .inr ⟨scope, rest, rfl, hrest⟩

/-! ## What is said and done at a place -/

theorem act_of_missing (source : Nat) (hp : p.node? = none) (r : Record) :
    ∃ d, complaint? source p = some d ∧ act source p r = (.error d, r) := by
  have hcomplaint : (complaint? source p).isSome := by
    unfold complaint?
    rw [hp]
    rfl
  obtain ⟨d, hd⟩ := Option.isSome_iff_exists.mp hcomplaint
  refine ⟨d, hd, ?_⟩
  unfold act
  rw [hd, Record.meet_of_missing hp]
  rfl

theorem act_of_outside (hp : p.node? = some n) (hs : p.scope? = none) (r : Record) :
    act source p r = (.error { defect := .noActiveScope n.kind.name, loc := n.loc }, r) := by
  unfold act complaint?
  rw [hp, hs, Record.meet_of_outside hs]
  rfl

theorem act_of_error {scope : List Nat} (hp : p.node? = some n) (hs : p.scope? = some scope)
    (hn : n.kind = .error) (r : Record) : act source p r =
      (.error { defect := .unparsedNode, loc := n.loc }, r.enter p.path n (r.poolOf scope)) := by
  unfold act complaint?
  rw [hp, hs, Record.meet_eq hp hs]
  simp only [hn, if_pos, Option.elim_some]

theorem act_of_read {scope : List Nat} (hp : p.node? = some n) (hs : p.scope? = some scope)
    (hn : n.kind ≠ .error) (r : Record) :
    act source p r = (.ok (), r.enter p.path n (r.poolOf scope)) := by
  unfold act complaint?
  rw [hp, hs, Record.meet_eq hp hs]
  simp only [if_neg hn, Option.elim_none]

/-- The visitor does this at every place, and nothing when it leaves a node. -/
theorem follows_act (source : Nat) (facts : Annotations) :
    (visitor source).Follows (Record.state facts) Keeps (act source) (fun _ => Walk.done) where
  refl _ _ _ _ := rfl
  trans h h' s hs := (h' s hs).trans (h s hs)
  tail h s hs := h s (List.mem_cons_of_mem _ hs)
  enter_keeps p r hne := keeps_meet hne r
  leave_keeps _ _ _ _ := rfl
  missing p r hp := by
    obtain ⟨d, hd, hact⟩ := act_of_missing source hp r
    unfold Walk.onPart
    rw [hact]
    unfold complaint? at hd
    rw [hp] at hd
    cases hd
    show missing source p.id (r.state facts p.above) = _
    unfold missing
    have hcurrent : (r.state facts p.above).current = p.above.head?.map (·.node) := rfl
    rw [hcurrent]
    cases p.above with
    | nil => rfl
    | cons s above => rfl
  error p n below r hp hn _ hne := by
    have hkind : n.kind.poolKind? = none := by rw [hn]; rfl
    have hinner : n.kind.opensScope = false := by rw [hn]; rfl
    have hnode : (visitor source).node n below =
        Walk.fail { defect := .unparsedNode, loc := n.loc } := by simp only [visitor, hn]
    rw [Walk.andThen_done, hnode]
    unfold Walk.onPart
    rcases stack_cases facts r hp hinner with ⟨hs, hstack⟩ | ⟨scope, rest, hs, hstack⟩
    · rw [act_of_outside hp hs, around_of_outside hkind hstack]
    · rw [act_of_error hp hs hn, around_eq_of_inner hkind hstack,
        ← state_enter facts r (r.poolOf scope) n hne]
      exact congrArg (Prod.mk _) (state_leave_inner (s := ⟨p.path, n⟩) hinner r _)
  node p n below inner r hp hn _ hne hbelow _ := by
    rw [Walk.andThen_done]
    unfold Walk.onPart
    cases hkind : n.kind.poolKind? with
    | some poolKind =>
      have hopens := NodeKind.opensScope_eq_true hkind
      have hs := Place.scope?_of_opens hp hopens
      rw [Walk.andThen_of_ok (act_of_read hp hs hn r), around_eq_of_scope hkind (r.poolOf p.path),
        ← state_enter facts r (r.poolOf p.path) n hne, hbelow]
      unfold Walk.onPart
      rw [state_leave (s := ⟨p.path, n⟩) hopens]
    | none =>
      have hinner := NodeKind.opensScope_eq_false.mpr hkind
      rcases stack_cases facts r hp hinner with ⟨hs, hstack⟩ | ⟨scope, rest, hs, hstack⟩
      · rw [Walk.andThen_of_error (act_of_outside hp hs r), around_of_outside hkind hstack]
      · rw [Walk.andThen_of_ok (act_of_read hp hs hn r), node_of_inner hkind hn,
          around_eq_of_inner hkind hstack, ← state_enter facts r (r.poolOf scope) n hne, hbelow]
        unfold Walk.onPart
        rw [state_leave_inner (s := ⟨p.path, n⟩) hinner]

/-- Resolving from the top on is meeting the places in order, up to the first complaint. -/
theorem traverse_eq {ast : Ast} {root : NodeId} (ho : ast.Unfolds (ast.outline root))
    (facts : Annotations) (pools : Pools) :
    traverse ast root { facts, pools } =
      (Walk.each (act ast.source) (ast.places root)).onPart (Record.state facts [])
        ⟨facts.pools, pools, fun _ => .null⟩ := by
  have hvisit :=
    (follows_act ast.source facts).visit_outline ho ⟨facts.pools, pools, fun _ => .null⟩
  rw [Walk.through_done] at hvisit
  exact hvisit

theorem each_act_of_none {ps : List Place} (h : ∀ p ∈ ps, complaint? source p = none) (r : Record) :
    Walk.each (act source) ps r = (.ok (), ps.foldl Record.meet r) := by
  induction ps generalizing r with
  | nil => rfl
  | cons p ps ih =>
    obtain ⟨hp, hps⟩ := List.forall_mem_cons.mp h
    have hact : act source p r = (.ok (), r.meet p) := by
      unfold act
      rw [hp]
      rfl
    rw [Walk.each, Walk.andThen_of_ok hact, ih hps, List.foldl_cons]

theorem each_act_of_some {before after : List Place} {d : Diagnostic}
    (h : ∀ p ∈ before, complaint? source p = none) (hp : complaint? source p = some d)
    (r : Record) : Walk.each (act source) (before ++ p :: after) r =
      (.error d, (before ++ [p]).foldl Record.meet r) := by
  have hact : ∀ r, act source p r = (.error d, r.meet p) := by
    intro r
    unfold act
    rw [hp]
    rfl
  rw [Walk.each_append, Walk.andThen_of_ok (each_act_of_none h r), Walk.each,
    Walk.andThen_of_error (hact _), List.foldl_append]
  rfl

/-! ## What meeting places has done -/

/-- What is attached to the nodes of these places. -/
def attached (poolOf : List Nat → PoolId) (ps : List Place) : List (NodeId × PoolId) :=
  ps.filterMap fun p => p.node?.map fun n => (n.id, poolOf p.path)

theorem mem_attached {poolOf : List Nat → PoolId} {ps : List Place} {entry : NodeId × PoolId} :
    entry ∈ attached poolOf ps ↔
      ∃ p ∈ ps, ∃ n, p.node? = some n ∧ (n.id, poolOf p.path) = entry := by
  simp only [attached, List.mem_filterMap, Option.map_eq_some_iff]

theorem attached_append (poolOf : List Nat → PoolId) (ps qs : List Place) :
    attached poolOf (ps ++ qs) = attached poolOf ps ++ attached poolOf qs := List.filterMap_append

theorem attached_cons (poolOf : List Nat → PoolId) (hp : p.node? = some n) (ps : List Place) :
    attached poolOf (p :: ps) = (n.id, poolOf p.path) :: attached poolOf ps := by
  unfold attached
  rw [List.filterMap_cons, hp]
  rfl

/-- The pools that are opened at these places. -/
def openings (poolOf : List Nat → PoolId) (ps : List Place) : List PoolId :=
  (ps.filter Place.opens).map (poolOf ·.path)

theorem mem_openings_iff {poolOf : List Nat → PoolId} {ps : List Place} {pool : PoolId} :
    pool ∈ openings poolOf ps ↔ ∃ p ∈ ps, p.opens = true ∧ poolOf p.path = pool := by
  simp only [openings, List.mem_map, List.mem_filter, and_assoc]

/-- What has happened from `r` to `r'` by meeting these places. -/
structure Met (ps : List Place) (r r' : Record) : Prop where
  table_eq : r'.table = r.table.insertAll (attached r'.poolOf ps)
  poolOf_eq : ∀ p ∈ ps, ∀ n scope, p.node? = some n → p.scope? = some scope →
    r'.poolOf p.path = r'.poolOf scope
  get?_opened : ∀ p ∈ ps, ∀ n poolKind, p.node? = some n → n.kind.poolKind? = some poolKind →
    r'.pools.get? (r'.poolOf p.path) = some { id := r'.poolOf p.path, kind := poolKind }
  keys : r'.pools.keys.Perm (openings r'.poolOf ps ++ r.pools.keys)
  kept : ∀ pool p, r.pools.get? pool = some p → r'.pools.get? pool = some p

theorem Met.nil (r : Record) : Met [] r r where
  table_eq := rfl
  poolOf_eq := by simp
  get?_opened := by simp
  keys := .refl _
  kept _ _ h := h

/-- Nothing happens at a dangling reference. -/
theorem Met.snoc_missing {ps : List Place} {r' : Record} (h : Met ps r r') (hp : p.node? = none) :
    Met (ps ++ [p]) r r' := by
  have hattached : attached r'.poolOf (ps ++ [p]) = attached r'.poolOf ps := by
    rw [attached_append]
    unfold attached
    rw [List.filterMap_cons, hp]
    exact List.append_nil _
  have hopenings : openings r'.poolOf (ps ++ [p]) = openings r'.poolOf ps := by
    unfold openings Place.opens
    rw [List.filter_append, List.filter_cons, hp]
    exact congrArg (List.map _) (List.append_nil _)
  have hlive : ∀ q ∈ ps ++ [p], ∀ n, q.node? = some n → q ∈ ps := by
    intro q hq n hn
    rcases List.mem_append.mp hq with hq | hq
    · exact hq
    · obtain rfl := List.mem_singleton.mp hq
      rw [hp] at hn
      cases hn
  exact ⟨hattached ▸ h.table_eq, fun q hq n scope hn => h.poolOf_eq q (hlive q hq n hn) n scope hn,
    fun q hq n poolKind hn => h.get?_opened q (hlive q hq n hn) n poolKind hn, hopenings ▸ h.keys,
    h.kept⟩

section

variable {ps : List Place} {r : Record} {outer : PoolId}

/-- The pools of what has a smaller path stay when a node is entered. -/
theorem Record.poolOf_enter_of_lt (r : Record) {path other : List Nat} (hlt : other < path)
    (n : Node) (outer : PoolId) : (r.enter path n outer).poolOf other = r.poolOf other :=
  r.poolOf_enter_of_ne (fun heq => List.lt_irrefl _ (heq ▸ hlt)) n outer

theorem attached_enter (hlt : ∀ q ∈ ps, q.path < p.path) (hp : p.node? = some n) :
    attached (r.enter p.path n outer).poolOf (ps ++ [p]) =
      attached r.poolOf ps ++ [(n.id, (Resolve.enter n.kind outer r.pools).1)] := by
  rw [attached_append, attached_cons _ hp, r.poolOf_enter_self]
  refine congrArg (· ++ _) (List.filterMap_congr fun q hq => ?_)
  rw [r.poolOf_enter_of_lt (hlt q hq)]

theorem openings_enter (hlt : ∀ q ∈ ps, q.path < p.path) (hp : p.node? = some n) :
    openings (r.enter p.path n outer).poolOf (ps ++ [p]) =
      openings r.poolOf ps ++ Attaches.opened [(n, (Resolve.enter n.kind outer r.pools).1)] := by
  unfold openings
  rw [List.filter_append, List.map_append]
  refine congrArg₂ _ (List.map_congr_left fun q hq =>
    r.poolOf_enter_of_lt (hlt q (List.mem_of_mem_filter hq)) n outer) ?_
  unfold Attaches.opened Place.opens
  rw [List.filter_cons, List.filter_cons, hp, Option.any_some]
  cases n.kind.opensScope with
  | true => exact congrArg (fun x => [x]) (r.poolOf_enter_self p.path n outer)
  | false => rfl

/-- A node has the pool of its nearest scope as soon as it is entered. -/
theorem poolOf_enter_eq_scope {scope : List Nat} (hdeep : p.Deeper) (hp : p.node? = some n)
    (hs : p.scope? = some scope) :
    (r.enter p.path n (r.poolOf scope)).poolOf p.path =
      (r.enter p.path n (r.poolOf scope)).poolOf scope := by
  rcases hdeep.scope_cases hs with rfl | hlower
  · rfl
  · -- the scope is further up, so none opens here
    have hk : n.kind.poolKind? = none := by
      cases hk : n.kind.poolKind? with
      | none => rfl
      | some poolKind =>
        have hopens := NodeKind.opensScope_eq_true hk
        obtain rfl := Option.some.inj (hs.symm.trans (Place.scope?_of_opens hp hopens))
        exact absurd hlower (List.lt_irrefl _)
    rw [r.poolOf_enter_self, r.poolOf_enter_of_lt hlower, Resolve.enter, hk]

end

/-- One more node is met. -/
theorem Met.snoc_live {ps : List Place} {r' : Record} (h : Met ps r r') (hdeep : ∀ q ∈ ps, q.Deeper)
    (hlt : ∀ q ∈ ps, q.path < p.path) (hpdeep : p.Deeper) {scope : List Nat} (hp : p.node? = some n)
    (hs : p.scope? = some scope) : Met (ps ++ [p]) r (r'.enter p.path n (r'.poolOf scope)) := by
  -- the pools of the places before and of their scopes stay
  have hbefore : ∀ q ∈ ps, (r'.enter p.path n (r'.poolOf scope)).poolOf q.path = r'.poolOf q.path :=
    fun q hq => r'.poolOf_enter_of_lt (hlt q hq) n _
  refine ⟨?_, ?_, ?_, ?_, fun pool q hq => Attaches.get?_enter (h.kept pool q hq) _ _⟩
  · rw [attached_enter hlt hp, SideTable.insertAll_append, ← h.table_eq]
    rfl
  · intro q hq m sc hm hsc
    rcases List.mem_append.mp hq with hq | hq
    · rw [hbefore q hq, h.poolOf_eq q hq m sc hm hsc]
      rcases (hdeep q hq).scope_cases hsc with rfl | hlower
      · exact (hbefore q hq).symm
      · exact (r'.poolOf_enter_of_lt (List.lt_trans hlower (hlt q hq)) n _).symm
    · obtain rfl := List.mem_singleton.mp hq
      obtain rfl := Option.some.inj (hs.symm.trans hsc)
      exact poolOf_enter_eq_scope hpdeep hp hsc
  · intro q hq m poolKind hm hk
    rcases List.mem_append.mp hq with hq | hq
    · rw [hbefore q hq]
      exact Attaches.get?_enter (h.get?_opened q hq m poolKind hm hk) _ _
    · obtain rfl := List.mem_singleton.mp hq
      obtain rfl := Option.some.inj (hp.symm.trans hm)
      rw [r'.poolOf_enter_self]
      exact get?_enter_self hk _ _
  · rw [openings_enter hlt hp]
    have hstep := Attaches.keys_enter n (r'.poolOf scope) r'.pools
    refine (hstep.trans (h.keys.append_left _)).trans ?_
    rw [← List.append_assoc]
    exact List.perm_append_comm.append_right _

/-- Meeting places in the order of their paths, all of them in a scope. -/
theorem met_foldl {ps : List Place} (sorted : ps.Pairwise fun p q => p.path < q.path)
    (hdeep : ∀ p ∈ ps, p.Deeper) (hscope : ∀ p ∈ ps, p.scope?.isSome) (r : Record) :
    Met ps r (ps.foldl Record.meet r) := by
  induction ps using List.reverseRecOn with
  | nil => exact .nil r
  | append_singleton ps p ih =>
    obtain ⟨hsorted, -, hlt⟩ := List.pairwise_append.mp sorted
    rw [List.forall_mem_append, List.forall_mem_singleton] at hdeep hscope
    have hmet := ih hsorted hdeep.1 hscope.1
    rw [List.foldl_append]
    show Met _ _ ((ps.foldl Record.meet r).meet p)
    cases hp : p.node? with
    | none =>
      rw [Record.meet_of_missing hp]
      exact hmet.snoc_missing hp
    | some n =>
      obtain ⟨scope, hs⟩ := Option.isSome_iff_exists.mp hscope.2
      rw [Record.meet_eq hp hs]
      have hlast : ∀ q ∈ ps, q.path < p.path := fun q hq => hlt q hq p (List.mem_singleton_self p)
      exact hmet.snoc_live hdeep.1 hlast hdeep.2 hp hs

namespace Met

variable {ps : List Place} {r' : Record}

theorem mem_openings (hp : p ∈ ps) (hopens : p.opens = true) :
    r'.poolOf p.path ∈ openings r'.poolOf ps :=
  mem_openings_iff.mpr ⟨p, hp, hopens, rfl⟩

/-- A pool that was opened was not there before. -/
theorem get?_eq_none (h : Met ps r r') (hp : p ∈ ps) (hopens : p.opens = true) :
    r.pools.get? (r'.poolOf p.path) = none := by
  have hnodup := h.keys.nodup_iff.mp (Arena.keys_nodup r'.pools)
  cases hpool : r.pools.get? (r'.poolOf p.path) with
  | none => rfl
  | some pool =>
    have hkey : r'.poolOf p.path ∈ r.pools.keys := Arena.mem_keys.mpr ⟨pool, hpool⟩
    exact absurd hkey ((List.nodup_append'.mp hnodup).2.2 (mem_openings hp hopens))

/-- No two places open the same pool. -/
theorem eq_of_poolOf_eq (h : Met ps r r') {q : Place} (hp : p ∈ ps) (hq : q ∈ ps)
    (hopens : p.opens = true) (hopens' : q.opens = true)
    (heq : r'.poolOf p.path = r'.poolOf q.path) : p = q := by
  have hnodup := h.keys.nodup_iff.mp (Arena.keys_nodup r'.pools)
  exact List.inj_on_of_nodup_map (List.nodup_append'.mp hnodup).1 (List.mem_filter.mpr ⟨hp, hopens⟩)
    (List.mem_filter.mpr ⟨hq, hopens'⟩) heq

end Met

end Resolve

end FlatScope
