import FlatScope.Walk

/-!
# Outlines

`ast.outline id` unfolds what is reachable from a node into an ordinary tree, with the dangling
references in it, on which theorems go by induction. A visitor goes through the arena by itself, in
the order that `Walk.below` has for every kind of node. This is the order of `NodeKind.children`
(`Walk.below_eq`), so visiting is a recursion on the outline (`Visitor.visit_eq`).
-/

namespace FlatScope

/-- What a reference leads to. -/
inductive Outline where
  | missing (id : NodeId)
  | node (node : Node) (children : List Outline)

namespace Outline

def id : Outline → NodeId
  | missing id => id
  | node n _ => n.id

mutual

/-- The tree from the top, parents before children, with the depth of each place. -/
def entries (depth : Nat) : Outline → List (Nat × NodeId × Option Node)
  | missing id => [(depth, id, none)]
  | node n children => (depth, n.id, some n) :: entriesOfAll (depth + 1) children

def entriesOfAll (depth : Nat) : List Outline → List (Nat × NodeId × Option Node)
  | [] => []
  | o :: os => o.entries depth ++ entriesOfAll depth os

end

/-- The live nodes, parents before children. -/
def nodes (o : Outline) : List Node := (o.entries 0).filterMap (·.2.2)

end Outline

namespace Ast

/-- `outline` down to the given depth. -/
def outlineWithin (ast : Ast) : (depth : Nat) → NodeId → Outline
  | 0, id => .missing id
  | depth + 1, id =>
    match ast.get? id with
    | none => .missing id
    | some n => .node n (n.kind.children.map (ast.outlineWithin depth))

/--
Everything reachable from a node. Unless references run in a circle a path meets every live node at
most once, so their number is depth enough.
-/
def outline (ast : Ast) (id : NodeId) : Outline := ast.outlineWithin ast.size id

theorem outlineWithin_of_none {ast : Ast} {id : NodeId} (h : ast.get? id = none) (depth : Nat) :
    ast.outlineWithin depth id = .missing id := by
  cases depth with
  | zero => rfl
  | succ depth => rw [outlineWithin, h]

theorem outlineWithin_of_some {ast : Ast} {id : NodeId} {n : Node} (h : ast.get? id = some n)
    (depth : Nat) : ast.outlineWithin (depth + 1) id =
      .node n (n.kind.children.map (ast.outlineWithin depth)) := by
  rw [outlineWithin, h]

/-- An arena that holds a node is not of size zero. -/
theorem size_pos {ast : Ast} {id : NodeId} {n : Node} (h : ast.get? id = some n) :
    0 < ast.size := by
  rw [size, ← Arena.length_keys]
  exact List.length_pos_of_mem (Arena.mem_keys.mpr ⟨n, h⟩)

end Ast

namespace Walk

variable {σ ε : Type}

theorem andThen_done (w : Walk σ ε) : w.andThen done = w := by
  funext s
  rw [andThen]
  split <;> (next h => exact h.symm)

/-- Every kind of node has its children visited in the order of `NodeKind.children`. -/
theorem below_eq (visit : NodeId → Walk σ ε) (kind : NodeKind) :
    below visit kind = list visit kind.children := by
  cases kind with
  | type spec => cases spec <;> simp [below, typeSpec, NodeKind.children, list, andThen_done]
  | ret value | identifier name value | new name value =>
    cases value <;> simp [below, optional, NodeKind.children, list, andThen_done]
  | accessor object member args =>
    cases args <;> simp [below, accessor, optional, NodeKind.children, list, andThen_done]
  | _ => simp [below, pair, triple, NodeKind.children, list, andThen_done]

end Walk

namespace Visitor

variable {σ ε : Type}

mutual

/-- Visits an unfolded tree, parents before children and children in order. -/
def visitTree (v : Visitor σ ε) : Outline → Walk σ ε
  | .missing id => v.around id none (v.missing id)
  | .node n children => v.around n.id (some n) (v.node n (v.visitTrees children))

def visitTrees (v : Visitor σ ε) : List Outline → Walk σ ε
  | [] => Walk.done
  | o :: os => (v.visitTree o).andThen (v.visitTrees os)

end

/-- The same without what the visitor does around the top. -/
def walkTree (v : Visitor σ ε) : Outline → Walk σ ε
  | .missing id => v.missing id
  | .node n children => v.node n (v.visitTrees children)

variable (v : Visitor σ ε)

theorem visitTrees_map (unfold : NodeId → Outline) (ids : List NodeId) :
    v.visitTrees (ids.map unfold) = Walk.list (fun id => v.visitTree (unfold id)) ids := by
  induction ids with
  | nil => rfl
  | cons id ids ih => rw [List.map_cons, visitTrees, ih, Walk.list]

theorem walkNode_eq (ast : Ast) (depth : Nat) (id : NodeId) :
    v.walkNode ast (fun id => v.visitTree (ast.outlineWithin depth id)) id =
      v.walkTree (ast.outlineWithin (depth + 1) id) := by
  cases hn : ast.get? id with
  | none =>
    rw [Ast.outlineWithin_of_none hn, walkNode, hn]
    rfl
  | some n =>
    rw [Ast.outlineWithin_of_some hn, walkNode, hn, walkTree, visitTrees_map]
    exact congrArg (v.node n) (Walk.below_eq _ _)

theorem visitWithin_eq (ast : Ast) (depth : Nat) (id : NodeId) :
    v.visitWithin ast depth id = v.visitTree (ast.outlineWithin depth id) := by
  induction depth generalizing id with
  | zero => rfl
  | succ depth ih =>
    rw [visitWithin, funext ih, walkNode_eq]
    cases hn : ast.get? id with
    | none =>
      rw [Ast.outlineWithin_of_none hn]
      rfl
    | some n =>
      rw [Ast.outlineWithin_of_some hn, ← ast.id_eq id n hn]
      rfl

/-- A visitor goes through the arena as through the outline of the node that it starts at. -/
theorem visit_eq (ast : Ast) (id : NodeId) : v.visit ast id = v.visitTree (ast.outline id) :=
  v.visitWithin_eq ast ast.size id

theorem walk_eq (ast : Ast) (id : NodeId) : v.walk ast id = v.walkTree (ast.outline id) := by
  rw [walk, funext (v.visitWithin_eq ast _), walkNode_eq, Ast.outline]
  cases hn : ast.get? id with
  | none => rw [Ast.outlineWithin_of_none hn, Ast.outlineWithin_of_none hn]
  | some n => rw [Nat.sub_add_cancel (Ast.size_pos hn)]

end Visitor

end FlatScope
