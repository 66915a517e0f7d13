import FlatScope.Annotations
import FlatScope.Diagnostic
import FlatScope.Pool
import FlatScope.Walk

/-!
# Scope resolution

Attaches a pool to every node. A unit and a function open a pool of their own; every node below
belongs to the pool of the nearest such node, however deep the blocks between them are. Classes open
none. The walk fails at the first dangling reference, node without a scope, or node that stands
where reading failed; what was attached until then stays.
-/

namespace FlatScope.Resolve

/-- The open pools, the innermost first, the node being visited, and what the walk works on. -/
structure State where
  stack : List PoolId := []
  current : Option Node := none
  facts : Annotations
  pools : Pools

def State.push (pool : PoolId) (s : State) : State := { s with stack := pool :: s.stack }

def State.pop (s : State) : State := { s with stack := s.stack.tail }

def State.withCurrent (current : Option Node) (s : State) : State := { s with current }

def attach (pool : PoolId) (id : NodeId) (s : State) : State :=
  { s with facts := s.facts.insert .pool id pool }

/-- Opens a new pool and attaches it to the node being visited. -/
def openScope (kind : PoolKind) (s : State) : State :=
  let (pool, pools) := s.pools.create kind
  let s := { s with pools }.push pool
  match s.current with
  | some n => attach pool n.id s
  | none => s

def inScope (kind : PoolKind) : Walk State Diagnostic → Walk State Diagnostic :=
  Walk.enclosed (openScope kind) State.pop

def within (n : Node) : Walk State Diagnostic → Walk State Diagnostic :=
  Walk.bracket State.current State.withCurrent (State.withCurrent (some n))

/-- A dangling reference is told at the node that holds it; `source` is where no node does. -/
def missing (source : Nat) (id : NodeId) : Walk State Diagnostic := fun s =>
  let (parent, loc) := match s.current with
    | some n => (n.kind.name, n.loc)
    | none => ("<root>", ⟨source, 0, 0⟩)
  let diagnostic : Diagnostic := { defect := .missingNode id, loc }
  (.error (diagnostic.withNote ("referenced from this `" ++ parent ++ "`") none), s)

def visitor (source : Nat) : Visitor State Diagnostic where
  around _ node? below :=
    match node? with
    | none => below
    | some n =>
      if n.kind.opensScope then within n below
      else fun s =>
        match s.stack with
        | [] => (.error { defect := .noActiveScope n.kind.name, loc := n.loc }, s)
        | pool :: _ => within n below (attach pool n.id s)
  missing := missing source
  node n below :=
    match n.kind with
    | .compUnit _ => inScope .global below
    | .function .. => inScope .function below
    | .error => Walk.fail { defect := .unparsedNode, loc := n.loc }
    | _ => below

/-- Resolves everything below a node. -/
def traverse (ast : Ast) (id : NodeId) : Walk State Diagnostic :=
  (visitor ast.source).visit ast id

/-- The same without visiting the node itself. -/
def walk (ast : Ast) (id : NodeId) : Walk State Diagnostic :=
  (visitor ast.source).walk ast id

/-- Resolves a part of a tree as if `pool` were the scope around it. -/
def subtree (ast : Ast) (id : NodeId) (pool : PoolId) : Walk State Diagnostic :=
  (traverse ast id).enclosed (State.push pool) State.pop

end FlatScope.Resolve
