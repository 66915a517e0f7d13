import FlatScope.Proofs.Following
import FlatScope.Proofs.Reserving
import FlatScope.Slots

/-!
# Numbering place by place

Numbering the locals is going through the events of a walk (`traverse_eq`): a name is reserved in
the pool of its node when the node is entered, and the size of a frame is attached when the function
is left. `Ledger` is what a run works on; the pools of the nodes are given and stay.
-/

namespace FlatScope

/-- What a node is to the numbering. -/
inductive Naming where
  /-- a function -/
  | frame
  /-- a parameter or a declaration -/
  | declares (name : String)
  /-- a plain identifier, not a call -/
  | reads (name : String)
  | type
  /-- stands where reading failed -/
  | unread
  | other
deriving DecidableEq

def NodeKind.naming : NodeKind → Naming
  | function .. => .frame
  | param _ name | declaration _ name => .declares name
  | identifier name none => .reads name
  | type _ => .type
  | error => .unread
  | _ => .other

/-- The name that is reserved at a node. -/
def Naming.reserved? : Naming → Option String
  | frame => some "this"
  | declares name => some name
  | _ => none

def Spot.isType (s : Spot) : Bool := s.node.kind.naming = .type

namespace Slots

/-- The slots and frames attached to nodes, and the pools. -/
structure Ledger where
  slots : SideTable .node Nat
  frames : SideTable .node Nat
  pools : Pools

/-- The state of a run below these nodes; `facts` holds the other tables. -/
def Ledger.state (facts : Annotations) (above : List Spot) (l : Ledger) : State where
  stack := above.map fun s => (facts.fetch .pool s.node.id).getD .null
  current := above.head?.map (·.node)
  inType := above.any Spot.isType
  facts := { facts with slots := l.slots, frames := l.frames }
  pools := l.pools

/-- Reserves a name in a pool and goes on with its slot. -/
def reserve (pool : PoolId) (name : String) (loc : Loc) (next : Nat → Walk Ledger Diagnostic) :
    Walk Ledger Diagnostic := fun l =>
  match l.pools.get? pool with
  | none => (.error (unregistered pool loc), l)
  | some _ =>
    match l.pools.reserve pool name with
    | (none, _) => (.error { defect := .tooManyLocals name, loc }, l)
    | (some slot, pools) => next slot { l with pools }

def Ledger.withSlot (l : Ledger) (id : NodeId) (slot : Nat) : Ledger :=
  { l with slots := l.slots.insert id slot }

/-- Attaches the slot of a name that is read, if it has one. -/
def Ledger.read (l : Ledger) (pool : PoolId) (name : String) (id : NodeId) : Ledger :=
  match (l.pools.get? pool).bind (·.lookup name) with
  | some slot => l.withSlot id slot
  | none => l

/-- What happens when a node of this pool is entered. -/
def enterNode (pool : PoolId) (inType : Bool) (n : Node) : Walk Ledger Diagnostic :=
  match n.kind.naming with
  | .frame => reserve pool "this" n.loc fun _ => Walk.done
  | .declares name => reserve pool name n.loc fun slot => Walk.modify (·.withSlot n.id slot)
  | .reads name => Walk.modify fun l => if inType then l else l.read pool name n.id
  | .unread => Walk.fail { defect := .unparsedNode, loc := n.loc }
  | .type | .other => Walk.done

/-- What happens when a place is come to. -/
def enter (source : Nat) (facts : Annotations) (p : Place) : Walk Ledger Diagnostic :=
  match p.node? with
  | none =>
    let loc := match p.above.head? with
      | some s => s.node.loc
      | none => ⟨source, 0, 0⟩
    Walk.fail { defect := .missingNode p.id, loc }
  | some n =>
    match facts.fetch .pool n.id with
    | none => Walk.fail { defect := .unresolved n.kind.name, loc := n.loc }
    | some pool => enterNode pool (p.above.any Spot.isType) n

/-- What happens when a node of this pool is left. -/
def leaveNode (pool : PoolId) (n : Node) : Walk Ledger Diagnostic := fun l =>
  match n.kind.naming with
  | .frame =>
    match l.pools.get? pool with
    | none => (.error (unregistered pool n.loc), l)
    | some p => (.ok (), { l with frames := l.frames.insert n.id p.size })
  | _ => (.ok (), l)

def leave (facts : Annotations) (p : Place) : Walk Ledger Diagnostic :=
  match p.node? with
  | none => Walk.done
  | some n => leaveNode ((facts.fetch .pool n.id).getD .null) n

variable {source : Nat} {facts : Annotations} {p : Place} {n : Node} {above : List Spot}
  {pool : PoolId}

theorem enter_of_none (hp : p.node? = some n) (hpool : facts.fetch .pool n.id = none) :
    enter source facts p =
      Walk.fail { defect := .unresolved n.kind.name, loc := n.loc } := by
  unfold enter
  simp only [hp, hpool]

theorem enter_of_some (hp : p.node? = some n) (hpool : facts.fetch .pool n.id = some pool) :
    enter source facts p = enterNode pool (p.above.any Spot.isType) n := by
  unfold enter
  simp only [hp, hpool]

theorem leave_of_some (hp : p.node? = some n) (hpool : facts.fetch .pool n.id = some pool) :
    leave facts p = leaveNode pool n := by
  unfold leave
  simp only [hp, hpool, Option.getD_some]

theorem node_eq (source : Nat) (n : Node) (below : Walk State Diagnostic) :
    (visitor source).node n below =
      match n.kind.naming with
      | .frame => function n.loc below
      | .declares name => (declare name n.loc).andThen below
      | .reads name => (readUnlessType name n.loc).andThen below
      | .type => insideType below
      | .unread => Walk.fail { defect := .unparsedNode, loc := n.loc }
      | .other => below := by
  simp only [visitor]
  split <;> simp_all [NodeKind.naming]

/-! ## The walk -/

/-- The state in which the node of a place is visited. -/
def Ledger.inside (facts : Annotations) (above : List Spot) (s : Spot) (l : Ledger) : State :=
  (l.state facts (s :: above)).withInType (above.any Spot.isType)

theorem around_eq (hpool : facts.fetch .pool n.id = some pool) (path : List Nat)
    {v : Walk State Diagnostic} {w : Walk Ledger Diagnostic} {l : Ledger}
    (h : v (l.inside facts above ⟨path, n⟩) = w.onPart (Ledger.inside facts above ⟨path, n⟩) l) :
    (visitor source).around n.id (some n) v (l.state facts above) =
      w.onPart (Ledger.state facts above) l := by
  have hfetch : (l.state facts above).facts.fetch .pool n.id = some pool := hpool
  have hstate : State.withCurrent (some n) ((l.state facts above).push pool) =
      l.inside facts above ⟨path, n⟩ := by
    unfold Ledger.inside Ledger.state
    rw [List.map_cons, hpool]
    rfl
  have hwithin : within n pool v (l.state facts above) =
      let done := v (l.inside facts above ⟨path, n⟩)
      (done.1, (done.2.withCurrent (l.state facts above).current).pop) := by
    rw [← hstate]
    rfl
  simp only [visitor, hfetch]
  rw [hwithin, h]
  rfl

theorem inside_eq {s : Spot} (h : s.isType = false) :
    Ledger.inside facts above s = Ledger.state facts (s :: above) := by
  funext l
  unfold Ledger.inside Ledger.state
  rw [List.any_cons, h]
  rfl

theorem reserve_andThen (pool : PoolId) (name : String) (loc : Loc)
    (next : Nat → Walk Ledger Diagnostic) (w : Walk Ledger Diagnostic) :
    (reserve pool name loc next).andThen w =
      reserve pool name loc fun slot => (next slot).andThen w := by
  funext l
  simp only [reserve, Walk.andThen]
  cases l.pools.get? pool with
  | none => rfl
  | some p =>
    obtain ⟨slot?, pools⟩ := l.pools.reserve pool name
    cases slot? <;> rfl

theorem reserveIn_eq {next : Nat → Walk State Diagnostic} {next' : Nat → Walk Ledger Diagnostic}
    (h : ∀ slot l, next slot (Ledger.state facts above l) =
      (next' slot).onPart (Ledger.state facts above) l)
    (pool : PoolId) (name : String) (loc : Loc) (l : Ledger) :
    reserveIn pool name loc next (l.state facts above) =
      (reserve pool name loc next').onPart (Ledger.state facts above) l := by
  have hpools : (l.state facts above).pools = l.pools := rfl
  simp only [reserveIn, reserve, Walk.onPart, hpools]
  cases l.pools.get? pool with
  | none => rfl
  | some p =>
    cases hr : l.pools.reserve pool name with
    | mk slot? pools =>
      cases slot? with
      | none =>
        obtain rfl := Pools.eq_of_reserve_none hr
        rfl
      | some slot => exact h slot { l with pools }

section

variable (hpool : facts.fetch .pool n.id = some pool) (path : List Nat)
include hpool

theorem withCurrent_eq (loc : Loc) (next : Node → PoolId → Walk State Diagnostic) (l : Ledger) :
    withCurrent loc next (l.state facts (⟨path, n⟩ :: above)) =
      next n pool (l.state facts (⟨path, n⟩ :: above)) := by
  unfold withCurrent Ledger.state
  rw [List.map_cons, hpool]
  rfl

theorem function_onPart (hnaming : n.kind.naming = .frame) {below : Walk State Diagnostic}
    {inner : Walk Ledger Diagnostic}
    (hbelow : ∀ l, below (Ledger.state facts (⟨path, n⟩ :: above) l) =
      inner.onPart (Ledger.state facts (⟨path, n⟩ :: above)) l) (l : Ledger) :
    function n.loc below (l.state facts (⟨path, n⟩ :: above)) =
      (reserve pool "this" n.loc fun _ => inner.andThen (leaveNode pool n)).onPart
        (Ledger.state facts (⟨path, n⟩ :: above)) l := by
  unfold function
  rw [withCurrent_eq hpool]
  refine reserveIn_eq (fun _ l => Visitor.andThen_onPart (hbelow l) fun l => ?_) pool "this" n.loc l
  have hpools : (l.state facts (⟨path, n⟩ :: above)).pools = l.pools := rfl
  simp only [leaveNode, hnaming, Walk.onPart, hpools]
  cases l.pools.get? pool with
  | none => rfl
  | some p => rfl

theorem declare_onPart (name : String) (l : Ledger) :
    declare name n.loc (l.state facts (⟨path, n⟩ :: above)) =
      (reserve pool name n.loc fun slot => Walk.modify (·.withSlot n.id slot)).onPart
        (Ledger.state facts (⟨path, n⟩ :: above)) l := by
  unfold declare
  rw [withCurrent_eq hpool]
  exact reserveIn_eq (fun _ _ => rfl) pool name n.loc l

theorem readUnlessType_onPart (hnaming : n.kind.naming ≠ .type) (name : String) (l : Ledger) :
    readUnlessType name n.loc (l.state facts (⟨path, n⟩ :: above)) =
      (Walk.modify fun l => if above.any Spot.isType then l else l.read pool name n.id).onPart
        (Ledger.state facts (⟨path, n⟩ :: above)) l := by
  have hinType : (l.state facts (⟨path, n⟩ :: above)).inType = above.any Spot.isType := by
    have hself : Spot.isType ⟨path, n⟩ = false := decide_eq_false hnaming
    unfold Ledger.state
    rw [List.any_cons, hself]
    rfl
  have hpools : (l.state facts (⟨path, n⟩ :: above)).pools = l.pools := rfl
  simp only [readUnlessType, hinType, Walk.onPart, Walk.modify]
  split
  · rfl
  · unfold read
    rw [withCurrent_eq hpool]
    simp only [Walk.modify, hpools, Ledger.read]
    cases (l.pools.get? pool).bind (·.lookup name) with
    | none => rfl
    | some slot => rfl

end

/-- Walking below a node of this pool. -/
theorem node_onPart (hpool : facts.fetch .pool n.id = some pool) (path : List Nat)
    {below : Walk State Diagnostic} {inner : Walk Ledger Diagnostic}
    (hbelow : ∀ l, below (Ledger.state facts (⟨path, n⟩ :: above) l) =
      inner.onPart (Ledger.state facts (⟨path, n⟩ :: above)) l) (l : Ledger) :
    (visitor source).node n below (l.inside facts above ⟨path, n⟩) =
      ((enterNode pool (above.any Spot.isType) n).andThen
        (inner.andThen (leaveNode pool n))).onPart (Ledger.inside facts above ⟨path, n⟩) l := by
  have hleave : n.kind.naming ≠ .frame → leaveNode pool n = Walk.done := by
    intro hnaming
    funext l
    unfold leaveNode
    split
    · next h => exact absurd h hnaming
    · rfl
  have htop : n.kind.naming ≠ .type →
      Ledger.inside facts above ⟨path, n⟩ = Ledger.state facts (⟨path, n⟩ :: above) :=
    fun hnaming => inside_eq (decide_eq_false hnaming)
  rw [node_eq]
  unfold enterNode
  cases hnaming : n.kind.naming with
  | frame =>
    rw [htop (by simp [hnaming]), reserve_andThen]
    exact function_onPart hpool path hnaming hbelow l
  | declares name =>
    rw [htop (by simp [hnaming]), hleave (by simp [hnaming]), Walk.andThen_done]
    exact Visitor.andThen_onPart (declare_onPart hpool path name l) hbelow
  | reads name =>
    rw [htop (by simp [hnaming]), hleave (by simp [hnaming]), Walk.andThen_done]
    exact Visitor.andThen_onPart
      (readUnlessType_onPart hpool path (by simp [hnaming]) name l) hbelow
  | type =>
    have hself : Spot.isType ⟨path, n⟩ = true := decide_eq_true hnaming
    have hstate : (l.inside facts above ⟨path, n⟩).withInType true =
        l.state facts (⟨path, n⟩ :: above) := by
      unfold Ledger.inside Ledger.state
      rw [List.any_cons, hself]
      rfl
    have hinside : insideType below (l.inside facts above ⟨path, n⟩) =
        ((below (l.state facts (⟨path, n⟩ :: above))).1,
          (below (l.state facts (⟨path, n⟩ :: above))).2.withInType (above.any Spot.isType)) := by
      rw [← hstate]
      rfl
    rw [hleave (by simp [hnaming]), Walk.andThen_done]
    show insideType below _ = _
    rw [hinside, hbelow]
    rfl
  | unread =>
    rfl
  | other =>
    rw [htop (by simp [hnaming]), hleave (by simp [hnaming]), Walk.andThen_done]
    exact hbelow l

/-- Without a pool a node is refused. -/
theorem around_of_none (hpool : facts.fetch .pool n.id = none) (v : Walk State Diagnostic)
    (l : Ledger) : (visitor source).around n.id (some n) v (l.state facts above) =
      (.error { defect := .unresolved n.kind.name, loc := n.loc }, l.state facts above) := by
  have hfetch : (l.state facts above).facts.fetch .pool n.id = none := hpool
  simp only [visitor, hfetch]

/-- The visitor does this when it comes to a place, and when it leaves it. -/
theorem follows_enter (source : Nat) (facts : Annotations) :
    (visitor source).Follows (Ledger.state facts) (fun _ _ _ => True) (enter source facts)
      (leave facts) where
  refl _ _ := trivial
  trans _ _ := trivial
  tail _ := trivial
  enter_keeps _ _ _ := trivial
  leave_keeps _ _ := trivial
  missing p l hp := by
    unfold enter
    rw [hp]
    show missing source p.id (l.state facts p.above) = _
    unfold missing Walk.onPart
    have hcurrent : (l.state facts p.above).current = p.above.head?.map (·.node) := rfl
    rw [hcurrent]
    cases p.above with
    | nil => rfl
    | cons s above => rfl
  error p n below l hp hn _ _ := by
    cases hpool : facts.fetch .pool n.id with
    | none =>
      rw [enter_of_none hp hpool]
      exact around_of_none hpool _ l
    | some pool =>
      rw [enter_of_some hp hpool]
      refine around_eq hpool p.path ?_
      rw [node_eq]
      unfold enterNode
      simp only [hn, NodeKind.naming]
      rfl
  node p n below inner l hp _ _ _ hbelow _ := by
    cases hpool : facts.fetch .pool n.id with
    | none =>
      rw [enter_of_none hp hpool]
      exact around_of_none hpool _ l
    | some pool =>
      rw [enter_of_some hp hpool, leave_of_some hp hpool]
      exact around_eq hpool p.path (node_onPart hpool p.path hbelow l)

/-- Numbering from the top on is going through the events of the walk. -/
theorem traverse_eq {ast : Ast} {root : NodeId} (ho : ast.Unfolds (ast.outline root))
    (facts : Annotations) (pools : Pools) :
    traverse ast root { facts, pools } =
      (Walk.through (enter ast.source facts) (leave facts) (ast.events root)).onPart
        (Ledger.state facts []) ⟨facts.slots, facts.frames, pools⟩ :=
  (follows_enter ast.source facts).visit_outline ho ⟨facts.slots, facts.frames, pools⟩

theorem exists_ledger {ast : Ast} {root : NodeId} (ho : ast.Unfolds (ast.outline root))
    {pools : Pools} {result : Except Diagnostic Unit} {s : State}
    (h : traverse ast root { facts, pools } = (result, s)) :
    ∃ l, Walk.through (enter ast.source facts) (leave facts) (ast.events root)
      ⟨facts.slots, facts.frames, pools⟩ = (result, l) ∧ l.state facts [] = s := by
  rw [traverse_eq ho, Walk.onPart] at h
  obtain ⟨hresult, hs⟩ := Prod.mk.inj h
  exact ⟨_, Prod.ext hresult rfl, hs⟩

/-! ## What a step leaves alone -/

section

variable {index : Nat} {l : Ledger}

/-- Reserving a name changes nothing but the pools. -/
theorem reserve_frame {β : Type} (part : Ledger → β)
    (hpools : ∀ l pools, part { l with pools } = part l) {next : Nat → Walk Ledger Diagnostic}
    (hnext : ∀ slot l, part (next slot l).2 = part l) (pool : PoolId) (name : String) (loc : Loc)
    (l : Ledger) : part (reserve pool name loc next l).2 = part l := by
  unfold reserve
  split
  · rfl
  · split
    · rfl
    · next slot pools _ => rw [hnext, hpools]

theorem place?_withSlot (hne : index ≠ n.id.index) (slot : Nat) (l : Ledger) :
    (l.withSlot n.id slot).slots.place? index = l.slots.place? index :=
  l.slots.place?_insert_of_ne slot hne

theorem place?_slots_enterNode (hne : index ≠ n.id.index) (pool : PoolId) (inType : Bool)
    (l : Ledger) : (enterNode pool inType n l).2.slots.place? index = l.slots.place? index := by
  unfold enterNode
  cases n.kind.naming with
  | frame =>
    refine reserve_frame (·.slots.place? index) (fun _ _ => rfl) (fun slot l => ?_) _ _ _ l
    rfl
  | declares name =>
    refine reserve_frame (·.slots.place? index) (fun _ _ => rfl) (fun slot l => ?_) _ _ _ l
    exact place?_withSlot hne slot l
  | reads name =>
    show (if inType then l else l.read pool name n.id).slots.place? index = _
    split
    · rfl
    · unfold Ledger.read
      split
      · exact place?_withSlot hne _ l
      · rfl
  | type | unread | other => rfl

theorem frames_enterNode (pool : PoolId) (inType : Bool) (n : Node) (l : Ledger) :
    (enterNode pool inType n l).2.frames = l.frames := by
  unfold enterNode
  cases n.kind.naming with
  | frame | declares name =>
    refine reserve_frame (·.frames) (fun _ _ => rfl) (fun slot l => ?_) _ _ _ l
    rfl
  | reads name =>
    show (if inType then l else l.read pool name n.id).frames = _
    split
    · rfl
    · unfold Ledger.read
      split <;> rfl
  | type | unread | other => rfl

theorem enter_cases (source : Nat) (facts : Annotations) (p : Place) :
    (∃ d, enter source facts p = Walk.fail d) ∨ ∃ n pool, p.node? = some n ∧
      enter source facts p = enterNode pool (p.above.any Spot.isType) n := by
  cases hp : p.node? with
  | none =>
    unfold enter
    rw [hp]
    exact .inl ⟨_, rfl⟩
  | some n =>
    cases hpool : facts.fetch .pool n.id with
    | none => exact .inl ⟨_, enter_of_none hp hpool⟩
    | some pool => exact .inr ⟨n, pool, rfl, enter_of_some hp hpool⟩

/-- Coming to a place attaches a slot to its own node only. -/
theorem place?_slots_enter (hne : ∀ n, p.node? = some n → index ≠ n.id.index) (l : Ledger) :
    (enter source facts p l).2.slots.place? index = l.slots.place? index := by
  rcases enter_cases source facts p with ⟨d, hfail⟩ | ⟨n, pool, hp, henter⟩
  · rw [hfail]
    rfl
  · rw [henter]
    exact place?_slots_enterNode (hne n hp) _ _ l

theorem frames_enter (source : Nat) (facts : Annotations) (p : Place) (l : Ledger) :
    (enter source facts p l).2.frames = l.frames := by
  rcases enter_cases source facts p with ⟨d, hfail⟩ | ⟨n, pool, -, henter⟩
  · rw [hfail]
    rfl
  · rw [henter]
    exact frames_enterNode _ _ _ l

theorem leave_cases (facts : Annotations) (p : Place) :
    leave facts p = Walk.done ∨ ∃ n pool, p.node? = some n ∧ leave facts p = leaveNode pool n := by
  unfold leave
  cases p.node? with
  | none => exact .inl rfl
  | some n => exact .inr ⟨n, _, rfl, rfl⟩

theorem slots_leave (facts : Annotations) (p : Place) (l : Ledger) :
    (leave facts p l).2.slots = l.slots := by
  rcases leave_cases facts p with hdone | ⟨n, pool, -, hleave⟩
  · rw [hdone]
    rfl
  · rw [hleave]
    unfold leaveNode
    split
    · split <;> rfl
    · rfl

/-- Leaving a place attaches a frame to its own node only, and only to a function. -/
theorem place?_frames_leave
    (hne : ∀ n, p.node? = some n → n.kind.naming = .frame → index ≠ n.id.index) (l : Ledger) :
    (leave facts p l).2.frames.place? index = l.frames.place? index := by
  rcases leave_cases facts p with hdone | ⟨n, pool, hp, hleave⟩
  · rw [hdone]
    rfl
  · rw [hleave]
    unfold leaveNode
    split
    · next hnaming =>
      split
      · rfl
      · exact l.frames.place?_insert_of_ne _ (hne n hp hnaming)
    · rfl

end

end Slots

end FlatScope
