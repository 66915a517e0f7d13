import FlatScope.Ast.Node
import FlatScope.Ty

/-!
# Syntax trees in an arena

An `Ast` owns the nodes of one source. A reference may dangle, for instance after `Ast.remove`, and
nothing keeps references from running in a circle; `Ast.descendants` is then cut off after some
rounds of its loop, which are enough otherwise.
-/

namespace FlatScope

/-- The nodes of source number `source`; every node knows its own id. -/
structure Ast where
  source : Nat
  nodes : Arena .node Node := .empty
  id_eq : ∀ id n, nodes.get? id = some n → n.id = id := by simp

namespace Ast

def empty (source : Nat) : Ast := { source }

def get? (ast : Ast) (id : NodeId) : Option Node := ast.nodes.get? id

def size (ast : Ast) : Nat := ast.nodes.size

def add (ast : Ast) (kind : NodeKind) (loc : Loc) : NodeId × Ast :=
  let inserted := ast.nodes.insert fun id => ⟨id, kind, loc⟩
  (inserted.1, {
    source := ast.source
    nodes := inserted.2
    id_eq := fun id n h => by
      rw [Arena.get?_insert] at h
      split at h
      · cases h; rfl
      · exact ast.id_eq id n h })

/-- Changes what a node is; its id and place stay. -/
def replace (ast : Ast) (id : NodeId) (kind : NodeKind) : Ast where
  source := ast.source
  nodes := ast.nodes.modify id fun n => { n with kind }
  id_eq := fun other n h => by
    rw [Arena.get?_modify] at h
    split at h
    · next eq =>
      obtain ⟨old, hold, rfl⟩ := Option.map_eq_some_iff.mp h
      exact eq ▸ ast.id_eq id old hold
    · exact ast.id_eq other n h

/-- Takes a node out; references to it dangle from now on. -/
def remove (ast : Ast) (id : NodeId) : Ast where
  source := ast.source
  nodes := ast.nodes.remove id
  id_eq := fun other n h => by
    rw [Arena.get?_remove] at h
    split at h
    · cases h
    · exact ast.id_eq other n h

/-- The ids of the nodes. -/
def ids (ast : Ast) : List NodeId := ast.nodes.keys

def children (ast : Ast) (id : NodeId) : List NodeId :=
  match ast.get? id with
  | some n => n.kind.children
  | none => []

/-- What a loop has found, and the references that it still has to look at, the next one last. -/
structure Sweep where
  found : Array Node := #[]
  pending : Array NodeId

/-- One round of the loop: the children of a live node go onto the stack, the last one first. -/
def sweep (ast : Ast) (w : Sweep) : Sweep :=
  match w.pending.back? with
  | none => w
  | some id =>
    match ast.get? id with
    | none => { w with pending := w.pending.pop }
    | some n => ⟨w.found.push n, w.pending.pop ++ (ast.children id).reverse⟩

/-- What the loop finds in so many rounds, or before if nothing is left to look at. -/
def sweepFor (ast : Ast) : (rounds : Nat) → Sweep → Array Node
  | 0, w => w.found
  | rounds + 1, w => if w.pending.isEmpty then w.found else ast.sweepFor rounds (ast.sweep w)

/-- The number of references in all nodes. -/
def references (ast : Ast) : Nat := (ast.ids.flatMap ast.children).length

/--
The live nodes reachable from `id`, parents before children. Unless references run in a circle a
path meets every live node at most once, and no node has more children than there are references:
there are no more paths than the loop has rounds.
-/
def descendants (ast : Ast) (id : NodeId) : List Node :=
  (ast.sweepFor (Nat.pow (ast.references + 1) ast.size) { pending := #[id] }).toList

/-- The name of an identifier node. -/
def identName (ast : Ast) (id : NodeId) : Option String :=
  match ast.get? id with
  | some ⟨_, .identifier name _, _⟩ => some name
  | _ => none

/-- The type that a type node stands for. -/
def typeOf (ast : Ast) (id : NodeId) : Option Ty :=
  match ast.get? id with
  | some ⟨_, .type spec, _⟩ =>
    match spec with
    | .int => some .int
    | .float => some .float
    | .string => some .string
    | .void => some .void
    | .named name => (ast.identName name).map .named
  | _ => none

/-- The declared type of a parameter node. -/
def parameterType (ast : Ast) (id : NodeId) : Option Ty :=
  match ast.get? id with
  | some ⟨_, .param ty _, _⟩ => ast.typeOf ty
  | _ => none

/-- The types of a parameter list in order, unless the list or one of its members is malformed. -/
def parameterTypes (ast : Ast) (id : NodeId) : Option (List Ty) :=
  match ast.get? id with
  | some ⟨_, .params items, _⟩ => items.mapM ast.parameterType
  | _ => none

end Ast

end FlatScope
