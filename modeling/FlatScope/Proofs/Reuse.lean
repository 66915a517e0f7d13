import FlatScope.Proofs.Following
import FlatScope.Resolve
import FlatScope.Slots

/-!
# Passes that are called again

A pass knows where it is in a tree: the pools around it, the node being visited, and whether it is
inside a type. A call that fails deep in a tree leaves all of this as it found it, like one that
succeeds (`Resolve.Call.restores_run`, `Slots.Call.restores_run`). So a pass that was called before
does the same as a new one over the storage and the pools of that moment (`calls_restore`).
-/

namespace FlatScope

namespace Walk

variable {σ ρ ε : Type} {part : σ → ρ} {w : Walk σ ε}

theorem Restores.enclosed {enter leave : σ → σ} (hw : w.Restores part)
    (hleave : ∀ s t, part t = part (enter s) → part (leave t) = part s) :
    (w.enclosed enter leave).Restores part := fun s => hleave s _ (hw (enter s))

theorem Restores.bracket {τ : Type} {region : σ → τ} {restore : τ → σ → σ} {enter : σ → σ}
    (hw : w.Restores part)
    (hrestore : ∀ s t, part t = part (enter s) → part (restore (region s) t) = part s) :
    (w.bracket region restore enter).Restores part := fun s => hrestore s _ (hw (enter s))

/-- One call after the other, failed or not: what each returned, and the state behind it. -/
def calls : List (Walk σ ε) → σ → List (Except ε Unit × σ)
  | [], _ => []
  | w :: ws, s => w s :: calls ws (w s).2

/-- The same with every call made in a state that was made anew from the one before. -/
def callsAnew (anew : σ → σ) : List (Walk σ ε) → σ → List (Except ε Unit × σ)
  | [], _ => []
  | w :: ws, s => w (anew s) :: callsAnew anew ws (w (anew s)).2

/-- What every call restores is behind each of them what it was before the first. -/
theorem part_calls {ws : List (Walk σ ε)} (hws : ∀ w ∈ ws, w.Restores part) {s : σ}
    {x : Except ε Unit × σ} (hx : x ∈ calls ws s) : part x.2 = part s := by
  induction ws generalizing s with
  | nil => cases hx
  | cons w ws ih =>
    obtain ⟨hw, hws⟩ := List.forall_mem_cons.mp hws
    rcases List.mem_cons.mp hx with rfl | hx
    · exact hw s
    · exact (ih hws hx).trans (hw s)

theorem calls_eq_callsAnew {ws : List (Walk σ ε)} (hws : ∀ w ∈ ws, w.Restores part)
    {anew : σ → σ} {s : σ} (hanew : ∀ t, part t = part s → anew t = t) :
    calls ws s = callsAnew anew ws s := by
  induction ws generalizing s with
  | nil => rfl
  | cons w ws ih =>
    obtain ⟨hw, hws⟩ := List.forall_mem_cons.mp hws
    rw [calls, callsAnew, hanew s rfl]
    exact congrArg _ (ih hws fun t ht => hanew t (ht.trans (hw s)))

end Walk

namespace Resolve

/-- Where a pass is. -/
def State.position (s : State) : List PoolId × Option Node := (s.stack, s.current)

/-- A new pass over the same storage and pools. -/
def State.anew (s : State) : State := { facts := s.facts, pools := s.pools }

variable {below : Walk State Diagnostic}

theorem stack_openScope (kind : PoolKind) (s : State) :
    (openScope kind s).stack = (s.pools.create kind).1 :: s.stack := by
  simp only [openScope]
  split <;> rfl

theorem current_openScope (kind : PoolKind) (s : State) :
    (openScope kind s).current = s.current := by
  simp only [openScope]
  split <;> rfl

theorem restores_inScope (kind : PoolKind) (hbelow : below.Restores State.position) :
    (inScope kind below).Restores State.position := by
  refine hbelow.enclosed fun s t ht => ?_
  obtain ⟨hstack, hcurrent⟩ := Prod.mk.inj ht
  rw [stack_openScope] at hstack
  rw [current_openScope] at hcurrent
  exact Prod.ext (congrArg List.tail hstack) hcurrent

theorem restores_within (n : Node) (hbelow : below.Restores State.position) :
    (within n below).Restores State.position :=
  hbelow.bracket fun _ _ ht => Prod.ext (Prod.mk.inj ht).1 rfl

theorem restores_node (source : Nat) (n : Node) (hbelow : below.Restores State.position) :
    ((visitor source).node n below).Restores State.position := by
  simp only [visitor]
  split
  · exact restores_inScope .global hbelow
  · exact restores_inScope .function hbelow
  · exact Walk.restores_fail _
  · exact hbelow

theorem restores_around (source : Nat) (id : NodeId) (n : Node)
    (hbelow : below.Restores State.position) :
    ((visitor source).around id (some n) below).Restores State.position := by
  intro s
  simp only [visitor]
  split
  · exact restores_within n hbelow s
  · dsimp only
    split
    · rfl
    · exact restores_within n hbelow _

theorem restores_visitTree (source : Nat) (o : Outline) :
    ((visitor source).visitTree o).Restores State.position :=
  Visitor.visitTree_induct Walk.restores_done (fun _ _ => Walk.Restores.andThen) (fun _ _ => rfl) o
    fun n _ _ hbelow => restores_around source n.id n (restores_node source n hbelow)

theorem restores_walkTree (source : Nat) (o : Outline) :
    ((visitor source).walkTree o).Restores State.position := by
  cases o with
  | missing id => exact fun _ => rfl
  | node n children =>
    exact restores_node source n (Visitor.visitTrees_induct Walk.restores_done
      (fun _ _ => Walk.Restores.andThen) fun o _ => restores_visitTree source o)

theorem restores_traverse (ast : Ast) (id : NodeId) :
    (traverse ast id).Restores State.position := by
  rw [traverse, Visitor.visit_eq]
  exact restores_visitTree ast.source _

theorem restores_walk (ast : Ast) (id : NodeId) : (walk ast id).Restores State.position := by
  rw [walk, Visitor.walk_eq]
  exact restores_walkTree ast.source _

/-- What a pass is called for: a node with all below it, only what is below, or a part of a tree. -/
inductive Call where
  | traverse (ast : Ast) (id : NodeId)
  | walk (ast : Ast) (id : NodeId)
  | subtree (ast : Ast) (id : NodeId) (pool : PoolId)

def Call.run : Call → Walk State Diagnostic
  | traverse ast id => Resolve.traverse ast id
  | walk ast id => Resolve.walk ast id
  | subtree ast id pool => Resolve.subtree ast id pool

theorem Call.restores_run (c : Call) : c.run.Restores State.position := by
  cases c with
  | traverse ast id => exact restores_traverse ast id
  | walk ast id => exact restores_walk ast id
  | subtree ast id pool =>
    refine (restores_traverse ast id).enclosed fun s t ht => ?_
    obtain ⟨hstack, hcurrent⟩ := Prod.mk.inj ht
    exact Prod.ext (congrArg List.tail hstack) hcurrent

theorem State.anew_of_position {facts : Annotations} {pools : Pools} {s : State}
    (h : s.position = State.position { facts, pools }) : s.anew = s := by
  obtain ⟨stack, current, facts', pools'⟩ := s
  cases h
  rfl

end Resolve

namespace Slots

/-- Where a pass is. -/
def State.position (s : State) : List PoolId × Option Node × Bool := (s.stack, s.current, s.inType)

/-- A new pass over the same storage and pools. -/
def State.anew (s : State) : State := { facts := s.facts, pools := s.pools }

variable {below : Walk State Diagnostic} {loc : Loc}

theorem restores_withCurrent {next : Node → PoolId → Walk State Diagnostic}
    (hnext : ∀ n pool, (next n pool).Restores State.position) :
    (withCurrent loc next).Restores State.position := by
  intro s
  unfold withCurrent
  split
  · exact hnext _ _ s
  · rfl

theorem restores_reserveIn (pool : PoolId) (name : String) {next : Nat → Walk State Diagnostic}
    (hnext : ∀ slot, (next slot).Restores State.position) :
    (reserveIn pool name loc next).Restores State.position := by
  intro s
  unfold reserveIn
  split
  · rfl
  · dsimp only
    split
    · rfl
    · exact hnext _ _

theorem restores_declare (name : String) : (declare name loc).Restores State.position :=
  restores_withCurrent fun _ pool => restores_reserveIn pool name fun _ _ => rfl

theorem restores_read (name : String) : (read name loc).Restores State.position := by
  refine restores_withCurrent fun n pool s => ?_
  simp only [Walk.modify]
  split <;> rfl

theorem restores_readUnlessType (name : String) :
    (readUnlessType name loc).Restores State.position := by
  intro s
  unfold readUnlessType
  split
  · rfl
  · exact restores_read name s

theorem restores_function (hbelow : below.Restores State.position) :
    (function loc below).Restores State.position := by
  refine restores_withCurrent fun n pool => restores_reserveIn pool "this" fun _ =>
    hbelow.andThen fun s => ?_
  split <;> rfl

theorem restores_insideType (hbelow : below.Restores State.position) :
    (insideType below).Restores State.position := by
  refine hbelow.bracket fun s t ht => ?_
  obtain ⟨hstack, hrest⟩ := Prod.mk.inj ht
  exact Prod.ext hstack (Prod.ext (Prod.mk.inj hrest).1 rfl)

theorem restores_within (n : Node) (pool : PoolId) (hbelow : below.Restores State.position) :
    (within n pool below).Restores State.position := by
  have hcurrent : (below.bracket State.current State.withCurrent
      (State.withCurrent (some n))).Restores State.position := by
    refine hbelow.bracket fun s t ht => ?_
    obtain ⟨hstack, hrest⟩ := Prod.mk.inj ht
    exact Prod.ext hstack (Prod.ext rfl (Prod.mk.inj hrest).2)
  refine hcurrent.enclosed fun s t ht => ?_
  obtain ⟨hstack, hrest⟩ := Prod.mk.inj ht
  exact Prod.ext (congrArg List.tail hstack) hrest

theorem restores_node (source : Nat) (n : Node) (hbelow : below.Restores State.position) :
    ((visitor source).node n below).Restores State.position := by
  simp only [visitor]
  split
  · exact restores_function hbelow
  · exact (restores_declare _).andThen hbelow
  · exact (restores_declare _).andThen hbelow
  · exact (restores_readUnlessType _).andThen hbelow
  · exact restores_insideType hbelow
  · exact Walk.restores_fail _
  · exact hbelow

theorem restores_around (source : Nat) (id : NodeId) (n : Node)
    (hbelow : below.Restores State.position) :
    ((visitor source).around id (some n) below).Restores State.position := by
  intro s
  simp only [visitor]
  split
  · rfl
  · exact restores_within n _ hbelow s

theorem restores_visitTree (source : Nat) (o : Outline) :
    ((visitor source).visitTree o).Restores State.position :=
  Visitor.visitTree_induct Walk.restores_done (fun _ _ => Walk.Restores.andThen) (fun _ _ => rfl) o
    fun n _ _ hbelow => restores_around source n.id n (restores_node source n hbelow)

theorem restores_walkTree (source : Nat) (o : Outline) :
    ((visitor source).walkTree o).Restores State.position := by
  cases o with
  | missing id => exact fun _ => rfl
  | node n children =>
    exact restores_node source n (Visitor.visitTrees_induct Walk.restores_done
      (fun _ _ => Walk.Restores.andThen) fun o _ => restores_visitTree source o)

theorem restores_traverse (ast : Ast) (id : NodeId) :
    (traverse ast id).Restores State.position := by
  rw [traverse, Visitor.visit_eq]
  exact restores_visitTree ast.source _

theorem restores_walk (ast : Ast) (id : NodeId) : (walk ast id).Restores State.position := by
  rw [walk, Visitor.walk_eq]
  exact restores_walkTree ast.source _

/-- What a pass is called for: a node with all below it, or only what is below. -/
inductive Call where
  | traverse (ast : Ast) (id : NodeId)
  | walk (ast : Ast) (id : NodeId)

def Call.run : Call → Walk State Diagnostic
  | traverse ast id => Slots.traverse ast id
  | walk ast id => Slots.walk ast id

theorem Call.restores_run (c : Call) : c.run.Restores State.position := by
  cases c with
  | traverse ast id => exact restores_traverse ast id
  | walk ast id => exact restores_walk ast id

theorem State.anew_of_position {facts : Annotations} {pools : Pools} {s : State}
    (h : s.position = State.position { facts, pools }) : s.anew = s := by
  obtain ⟨stack, current, inType, facts', pools'⟩ := s
  cases h
  rfl

end Slots

/--
Behind every call of a sequence on one pass, failed or not, the pass is where it was before the
first; on a pass that starts as a new one each call returns and changes what it does on a new one.
-/
theorem calls_restore :
    (∀ (cs : List Resolve.Call) (s : Resolve.State),
      ∀ x ∈ Walk.calls (cs.map Resolve.Call.run) s,
        x.2.stack = s.stack ∧ x.2.current = s.current) ∧
    (∀ (cs : List Resolve.Call) (facts : Annotations) (pools : Pools),
      Walk.calls (cs.map Resolve.Call.run) { facts, pools } =
        Walk.callsAnew Resolve.State.anew (cs.map Resolve.Call.run) { facts, pools }) ∧
    (∀ (cs : List Slots.Call) (s : Slots.State),
      ∀ x ∈ Walk.calls (cs.map Slots.Call.run) s,
        x.2.stack = s.stack ∧ x.2.current = s.current ∧ x.2.inType = s.inType) ∧
    (∀ (cs : List Slots.Call) (facts : Annotations) (pools : Pools),
      Walk.calls (cs.map Slots.Call.run) { facts, pools } =
        Walk.callsAnew Slots.State.anew (cs.map Slots.Call.run) { facts, pools }) := by
  have hresolve : ∀ cs : List Resolve.Call,
      ∀ w ∈ cs.map Resolve.Call.run, w.Restores Resolve.State.position :=
    fun cs => List.forall_mem_map.mpr fun c _ => c.restores_run
  have hslots : ∀ cs : List Slots.Call,
      ∀ w ∈ cs.map Slots.Call.run, w.Restores Slots.State.position :=
    fun cs => List.forall_mem_map.mpr fun c _ => c.restores_run
  refine ⟨fun cs s x hx => ?_, fun cs facts pools => ?_, fun cs s x hx => ?_,
    fun cs facts pools => ?_⟩
  · exact Prod.mk.inj (Walk.part_calls (hresolve cs) hx)
  · exact Walk.calls_eq_callsAnew (hresolve cs) fun t => Resolve.State.anew_of_position
  · obtain ⟨hstack, hrest⟩ := Prod.mk.inj (Walk.part_calls (hslots cs) hx)
    exact ⟨hstack, Prod.mk.inj hrest⟩
  · exact Walk.calls_eq_callsAnew (hslots cs) fun t => Slots.State.anew_of_position

/-- The first call fails inside a type, at a node that stands where reading failed. -/
example :
    let ast := (((Ast.empty 0).add .error ⟨0, 0, 1⟩).2.add (.type (.named (.at 1 1))) ⟨0, 0, 1⟩).2
    let calls := [Resolve.Call.subtree ast (.at 2 1) .null, .traverse ast (.at 2 1)]
    (Walk.calls (calls.map Resolve.Call.run) { facts := .empty, pools := .empty }).map
      (fun x => (x.1, x.2.stack, x.2.current)) =
        [(.error { defect := .unparsedNode, loc := ⟨0, 0, 1⟩ }, [], none),
          (.error { defect := .noActiveScope "type", loc := ⟨0, 0, 1⟩ }, [], none)] := by
  decide +kernel

end FlatScope
