import FlatScope.Annotations
import FlatScope.Diagnostic
import FlatScope.Pool
import FlatScope.Walk

/-!
# Local slots

Numbers the local variables of every function in the pools that scope resolution attached. Slot 0 of
a function is `this`; parameters follow, then declarations in the order of the text. A plain
identifier gets the slot of its name if its pool has one by then; calls, and names in types, never
do. The walk fails at the first dangling reference, node without a pool, full frame, or node that
stands where reading failed; what was attached and reserved until then stays.
-/

namespace FlatScope.Slots

/--
The pools of the nodes being visited, the innermost first, the innermost node, whether it is inside
a type, and what the walk works on.
-/
structure State where
  stack : List PoolId := []
  current : Option Node := none
  inType : Bool := false
  facts : Annotations
  pools : Pools

def State.push (pool : PoolId) (s : State) : State := { s with stack := pool :: s.stack }

def State.pop (s : State) : State := { s with stack := s.stack.tail }

def State.withCurrent (current : Option Node) (s : State) : State := { s with current }

def State.withInType (inType : Bool) (s : State) : State := { s with inType }

def outsideNode (loc : Loc) : Diagnostic :=
  { defect := .internal "slot assignment outside of a node", loc }

def unregistered (pool : PoolId) (loc : Loc) : Diagnostic :=
  { defect := .internal ("scope pool " ++ pool.text ++ " is not registered"), loc }

/-- Goes on with the node being visited and its pool. -/
def withCurrent (loc : Loc) (next : Node → PoolId → Walk State Diagnostic) :
    Walk State Diagnostic := fun s =>
  match s.current, s.stack with
  | some n, pool :: _ => next n pool s
  | _, _ => (.error (outsideNode loc), s)

/-- Goes on with the slot of `name` in a pool. -/
def reserveIn (pool : PoolId) (name : String) (loc : Loc) (next : Nat → Walk State Diagnostic) :
    Walk State Diagnostic := fun s =>
  match s.pools.get? pool with
  | none => (.error (unregistered pool loc), s)
  | some _ =>
    let (slot, pools) := s.pools.reserve pool name
    let s := { s with pools }
    match slot with
    | none => (.error { defect := .tooManyLocals name, loc }, s)
    | some slot => next slot s

def attach (f : Fact) (id : NodeId) (value : f.Value) (s : State) : State :=
  { s with facts := s.facts.insert f id value }

/-- Reserves a declared name and attaches its slot to the node being visited. -/
def declare (name : String) (loc : Loc) : Walk State Diagnostic :=
  withCurrent loc fun n pool =>
    reserveIn pool name loc fun slot => Walk.modify (attach .slot n.id slot)

/-- Attaches the slot of a name that is read, if it has one. -/
def read (name : String) (loc : Loc) : Walk State Diagnostic :=
  withCurrent loc fun n pool =>
    Walk.modify fun s =>
      match (s.pools.get? pool).bind (·.lookup name) with
      | some slot => attach .slot n.id slot s
      | none => s

def readUnlessType (name : String) (loc : Loc) : Walk State Diagnostic := fun s =>
  if s.inType then (.ok (), s) else read name loc s

/-- Reserves `this`, walks the function, and attaches the size of its frame. -/
def function (loc : Loc) (below : Walk State Diagnostic) : Walk State Diagnostic :=
  withCurrent loc fun n pool =>
    reserveIn pool "this" loc fun _ =>
      below.andThen fun s =>
        match s.pools.get? pool with
        | none => (.error (unregistered pool loc), s)
        | some p => (.ok (), attach .frame n.id p.size s)

def insideType : Walk State Diagnostic → Walk State Diagnostic :=
  Walk.bracket State.inType State.withInType (State.withInType true)

/-- A dangling reference is told at the node that holds it; `source` is where no node does. -/
def missing (source : Nat) (id : NodeId) : Walk State Diagnostic := fun s =>
  let loc := match s.current with
    | some n => n.loc
    | none => ⟨source, 0, 0⟩
  (.error { defect := .missingNode id, loc }, s)

/-- Visits a node with its pool on top of the stack. -/
def within (n : Node) (pool : PoolId) (below : Walk State Diagnostic) : Walk State Diagnostic :=
  (below.bracket State.current State.withCurrent (State.withCurrent (some n))).enclosed
    (State.push pool) State.pop

def visitor (source : Nat) : Visitor State Diagnostic where
  around _ node? below :=
    match node? with
    | none => below
    | some n => fun s =>
      match s.facts.fetch .pool n.id with
      | none => (.error { defect := .unresolved n.kind.name, loc := n.loc }, s)
      | some pool => within n pool below s
  missing := missing source
  node n below :=
    match n.kind with
    | .function .. => function n.loc below
    | .param _ name | .declaration _ name => (declare name n.loc).andThen below
    | .identifier name none => (readUnlessType name n.loc).andThen below
    | .type _ => insideType below
    | .error => Walk.fail { defect := .unparsedNode, loc := n.loc }
    | _ => below

/-- Numbers the locals of everything below a node. -/
def traverse (ast : Ast) (id : NodeId) : Walk State Diagnostic :=
  (visitor ast.source).visit ast id

/-- The same without visiting the node itself. -/
def walk (ast : Ast) (id : NodeId) : Walk State Diagnostic :=
  (visitor ast.source).walk ast id

end FlatScope.Slots
