import FlatScope.Ast.Basic

/-!
# Walking a tree

A `Walk` changes a state and may fail; what it did to the state before it failed stays. A `Visitor`
says what to do around each reference, on a dangling one, and on each kind of node, where the walk
over its children (`Walk.below`) is given to it. `Visitor.visit` runs a visitor from a node on,
parents before children, and stops at the first failure. `Visitor.walk` is the same without what the
visitor does around the top. `Visitor.plain` goes everywhere and does nothing of its own.
-/

namespace FlatScope

abbrev Walk (σ ε : Type) := σ → Except ε Unit × σ

namespace Walk

variable {σ ε : Type}

def done : Walk σ ε := fun s => (.ok (), s)

def fail (e : ε) : Walk σ ε := fun s => (.error e, s)

def modify (f : σ → σ) : Walk σ ε := fun s => (.ok (), f s)

/-- First `v`, then, unless it failed, `w`. -/
def andThen (v w : Walk σ ε) : Walk σ ε := fun s =>
  match v s with
  | (.ok (), s) => w s
  | (.error e, s) => (.error e, s)

/-- Enters a region of the walk, and leaves it again, failed or not. -/
def enclosed (enter leave : σ → σ) (w : Walk σ ε) : Walk σ ε := fun s =>
  let (result, s) := w (enter s)
  (result, leave s)

/-- Enters a region of the walk, and puts a part of the state back behind it, failed or not. -/
def bracket {ρ : Type} (part : σ → ρ) (restore : ρ → σ → σ) (enter : σ → σ) (w : Walk σ ε) :
    Walk σ ε := fun s =>
  w.enclosed enter (restore (part s)) s

section

variable (visit : NodeId → Walk σ ε)

/-- Any of the lists: items in order. -/
def list : List NodeId → Walk σ ε
  | [] => done
  | id :: ids => (visit id).andThen (list ids)

def optional : Option NodeId → Walk σ ε
  | some id => visit id
  | none => done

/-- Two children, the first before the second. -/
def pair (first second : NodeId) : Walk σ ε := (visit first).andThen (visit second)

def triple (first second third : NodeId) : Walk σ ε :=
  (visit first).andThen (pair visit second third)

/-- Only a class is named by a node. -/
def typeSpec : TypeSpec → Walk σ ε
  | .named name => visit name
  | .int | .float | .string | .void => done

def accessor (object : NodeId) (args : Option NodeId) : Walk σ ε :=
  (visit object).andThen (optional visit args)

/-- Visits the children of a node as its kind has them, in the order of the grammar. -/
def below : NodeKind → Walk σ ε
  | .compUnit classes => list visit classes
  | .classDecl _ members => visit members
  | .definitions items => list visit items
  | .field ty _ => visit ty
  | .function ty _ params body => triple visit ty params body
  | .params items => list visit items
  | .param ty _ => visit ty
  | .type spec => typeSpec visit spec
  | .statements items => list visit items
  | .compound stmts => visit stmts
  | .declaration ty _ => visit ty
  | .assignment target value => pair visit target value
  | .ifThen cond thenBranch => pair visit cond thenBranch
  | .ifElse cond thenBranch elseBranch => triple visit cond thenBranch elseBranch
  | .whileDo cond body => pair visit cond body
  | .ret value => optional visit value
  | .brk => done
  | .cont => done
  | .print value => visit value
  | .eval value => visit value
  | .expressions items => list visit items
  | .int _ => done
  | .float _ => done
  | .string _ => done
  | .null => done
  | .this => done
  | .identifier _ args => optional visit args
  | .new _ args => optional visit args
  | .accessor object _ args => accessor visit object args
  | .binary _ left right => pair visit left right
  | .unary _ operand => visit operand
  | .paren inner => visit inner
  | .error => done

end

end Walk

structure Visitor (σ ε : Type) where
  /-- around every reference, given the node unless it dangles and the walk below -/
  around : NodeId → Option Node → Walk σ ε → Walk σ ε
  /-- at a dangling reference -/
  missing : NodeId → Walk σ ε
  /-- at a node, given the walk over its children -/
  node : Node → Walk σ ε → Walk σ ε

namespace Visitor

variable {σ ε : Type}

section

variable (v : Visitor σ ε) (ast : Ast)

/-- Walks from a reference on, where `visit` visits what the node refers to. -/
def walkNode (visit : NodeId → Walk σ ε) (id : NodeId) : Walk σ ε :=
  match ast.get? id with
  | none => v.missing id
  | some n => v.node n (Walk.below visit n.kind)

/-- `visit` down to the given depth, where references are taken for dangling ones. -/
def visitWithin : (depth : Nat) → NodeId → Walk σ ε
  | 0, id => v.around id none (v.missing id)
  | depth + 1, id => v.around id (ast.get? id) (v.walkNode ast (visitWithin depth) id)

/--
Visits everything reachable from a node. Unless references run in a circle a path meets every live
node at most once, so their number is depth enough.
-/
def visit (id : NodeId) : Walk σ ε := v.visitWithin ast ast.size id

/-- The same without what the visitor does around the node itself. -/
def walk (id : NodeId) : Walk σ ε := v.walkNode ast (v.visitWithin ast (ast.size - 1)) id

end

/--
Only says what happens at a dangling reference, and at a node that stands where reading failed.
-/
def plain (missing : NodeId → Walk σ ε) (error : Loc → Walk σ ε) : Visitor σ ε where
  around _ _ below := below
  missing := missing
  node n below :=
    match n.kind with
    | .error => error n.loc
    | _ => below

end Visitor

end FlatScope
