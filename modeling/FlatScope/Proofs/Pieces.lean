import FlatScope.Proofs.Outline
import FlatScope.Proofs.Syntax

/-!
# The program in a tree

A `Piece` is what a node stands for with all that is below it. `NodeKind.assemble` puts the pieces
of a node's children together to the piece of the node, one rule a kind, and `Outline.piece?` does
so from the bottom up; ids and places are left out. `ast.piece? id` is the program, class, statement
or expression that node `id` of an arena is the top of.
-/

namespace FlatScope

inductive Piece where
  | program (p : Program)
  | classDecl (d : ClassDecl)
  | members (ms : List Member)
  | member (m : Member)
  | params (ps : List Param)
  | param (p : Param)
  | type (ty : Ty)
  | stmts (ss : List Stmt)
  | stmt (s : Stmt)
  | exprs (es : List Expr)
  | expr (e : Expr)
deriving Repr

namespace Piece

def classDecl? : Piece → Option ClassDecl
  | classDecl d => some d
  | _ => none

def member? : Piece → Option Member
  | member m => some m
  | _ => none

def param? : Piece → Option Param
  | param p => some p
  | _ => none

def stmt? : Piece → Option Stmt
  | stmt s => some s
  | _ => none

def expr? : Piece → Option Expr
  | expr e => some e
  | _ => none

variable {x : Piece}

theorem eq_of_classDecl? (d : ClassDecl) (h : x.classDecl? = some d) : x = .classDecl d := by
  cases x <;> cases h
  rfl

theorem eq_of_member? (m : Member) (h : x.member? = some m) : x = .member m := by
  cases x <;> cases h
  rfl

theorem eq_of_param? (p : Param) (h : x.param? = some p) : x = .param p := by
  cases x <;> cases h
  rfl

theorem eq_of_stmt? (s : Stmt) (h : x.stmt? = some s) : x = .stmt s := by
  cases x <;> cases h
  rfl

theorem eq_of_expr? (e : Expr) (h : x.expr? = some e) : x = .expr e := by
  cases x <;> cases h
  rfl

end Piece

/-- The piece of a node, given the pieces of its children in order. -/
def NodeKind.assemble : NodeKind → List Piece → Option Piece
  | .compUnit _, parts => (parts.mapM Piece.classDecl?).map fun ds => .program ⟨ds⟩
  | .classDecl name _, [.members ms] => some (.classDecl ⟨name, ms⟩)
  | .definitions _, parts => (parts.mapM Piece.member?).map .members
  | .field _ name, [.type ty] => some (.member (.field ty name))
  | .function _ name _ _, [.type ty, .params ps, .stmt (.block body)] =>
    some (.member (.function ty name ps body))
  | .params _, parts => (parts.mapM Piece.param?).map .params
  | .param _ name, [.type ty] => some (.param ⟨ty, name⟩)
  | .type .int, [] => some (.type .int)
  | .type .float, [] => some (.type .float)
  | .type .string, [] => some (.type .string)
  | .type .void, [] => some (.type .void)
  | .type (.named _), [.expr (.name name)] => some (.type (.named name))
  | .statements _, parts => (parts.mapM Piece.stmt?).map .stmts
  | .compound _, [.stmts body] => some (.stmt (.block body))
  | .declaration _ name, [.type ty] => some (.stmt (.declare ty name))
  | .assignment _ _, [.expr target, .expr value] => some (.stmt (.assign target value))
  | .ifThen _ _, [.expr cond, .stmt body] => some (.stmt (.ifThen cond body))
  | .ifElse _ _ _, [.expr cond, .stmt body, .stmt other] => some (.stmt (.ifElse cond body other))
  | .whileDo _ _, [.expr cond, .stmt body] => some (.stmt (.whileDo cond body))
  | .ret none, [] => some (.stmt (.ret none))
  | .ret (some _), [.expr value] => some (.stmt (.ret (some value)))
  | .brk, [] => some (.stmt .brk)
  | .cont, [] => some (.stmt .cont)
  | .print _, [.expr value] => some (.stmt (.print value))
  | .eval _, [.expr value] => some (.stmt (.eval value))
  | .expressions _, parts => (parts.mapM Piece.expr?).map .exprs
  | .int (.ofNat value), [] => some (.expr (.int value))
  | .float value, [] => some (.expr (.float value))
  | .string value, [] => some (.expr (.string value))
  | .null, [] => some (.expr .null)
  | .this, [] => some (.expr .this)
  | .identifier name none, [] => some (.expr (.name name))
  | .identifier name (some _), [.exprs args] => some (.expr (.call name args))
  | .new className (some _), [.exprs args] => some (.expr (.new className args))
  | .accessor _ member none, [.expr object] => some (.expr (.field object member))
  | .accessor _ member (some _), [.expr object, .exprs args] =>
    some (.expr (.method object member args))
  | .binary op _ _, [.expr left, .expr right] => some (.expr (.binary op left right))
  | .unary op _, [.expr operand] => some (.expr (.unary op operand))
  | .paren _, [.expr inner] => some (.expr (.paren inner))
  | _, _ => none

/-- What is wrapped member by member is unwrapped again. -/
theorem mapM_map {α β : Type} (wrap : α → β) (unwrap : β → Option α)
    (h : ∀ a, unwrap (wrap a) = some a) (as : List α) : (as.map wrap).mapM unwrap = some as := by
  induction as with
  | nil => rfl
  | cons a as ih => simp [h, ih]

/-- A list that can be unwrapped member by member is a list of wrapped members. -/
theorem eq_map_of_mapM {α β : Type} {wrap : α → β} {unwrap : β → Option α}
    (hu : ∀ part a, unwrap part = some a → part = wrap a) {parts : List β} {as : List α}
    (h : parts.mapM unwrap = some as) : parts = as.map wrap := by
  induction parts generalizing as with
  | nil =>
    cases h
    rfl
  | cons part parts ih =>
    rw [List.mapM_cons] at h
    obtain ⟨a, ha, h⟩ := Option.bind_eq_some_iff.mp h
    obtain ⟨as', has, h⟩ := Option.bind_eq_some_iff.mp h
    cases h
    rw [List.map_cons, ← hu part a ha, ← ih has]

namespace NodeKind

variable {items : List NodeId}

theorem assemble_compUnit (ds : List ClassDecl) :
    (compUnit items).assemble (ds.map .classDecl) = some (.program ⟨ds⟩) := by
  show ((ds.map Piece.classDecl).mapM Piece.classDecl?).map _ = _
  rw [mapM_map Piece.classDecl Piece.classDecl? fun _ => rfl, Option.map_some]

theorem assemble_definitions (ms : List Member) :
    (definitions items).assemble (ms.map .member) = some (.members ms) := by
  show ((ms.map Piece.member).mapM Piece.member?).map _ = _
  rw [mapM_map Piece.member Piece.member? fun _ => rfl, Option.map_some]

theorem assemble_params (ps : List Param) :
    (params items).assemble (ps.map .param) = some (.params ps) := by
  show ((ps.map Piece.param).mapM Piece.param?).map _ = _
  rw [mapM_map Piece.param Piece.param? fun _ => rfl, Option.map_some]

theorem assemble_statements (ss : List Stmt) :
    (statements items).assemble (ss.map .stmt) = some (.stmts ss) := by
  show ((ss.map Piece.stmt).mapM Piece.stmt?).map _ = _
  rw [mapM_map Piece.stmt Piece.stmt? fun _ => rfl, Option.map_some]

theorem assemble_expressions (es : List Expr) :
    (expressions items).assemble (es.map .expr) = some (.exprs es) := by
  show ((es.map Piece.expr).mapM Piece.expr?).map _ = _
  rw [mapM_map Piece.expr Piece.expr? fun _ => rfl, Option.map_some]

end NodeKind

namespace Outline

mutual

/-- What the tree stands for; `none` if a node is missing or out of place. -/
def piece? : Outline → Option Piece
  | missing _ => none
  | node n children => (pieces? children).bind n.kind.assemble

def pieces? : List Outline → Option (List Piece)
  | [] => some []
  | o :: os => do return (← o.piece?) :: (← pieces? os)

end

theorem pieces?_eq_some {os : List Outline} {parts : List Piece} :
    pieces? os = some parts ↔ os.map piece? = parts.map some := by
  induction os generalizing parts with
  | nil => cases parts <;> simp [pieces?]
  | cons o os ih =>
    cases parts with
    | nil => simp [pieces?, Option.bind_eq_some_iff]
    | cons part parts =>
      simp only [pieces?, Option.bind_eq_bind, Option.bind_eq_some_iff, Option.pure_def,
        Option.some.injEq, List.cons.injEq, List.map_cons, ← ih]
      constructor
      · rintro ⟨_, h, _, h', rfl, rfl⟩
        exact ⟨h, h'⟩
      · rintro ⟨h, h'⟩
        exact ⟨part, h, parts, h', rfl, rfl⟩

theorem piece?_node {n : Node} {children : List Outline} {parts : List Piece}
    (h : children.map piece? = parts.map some) :
    (node n children).piece? = n.kind.assemble parts := by
  rw [piece?, pieces?_eq_some.mpr h, Option.bind_some]

theorem exists_part_of_mem {os : List Outline} {parts : List Piece} {o : Outline}
    (h : os.map piece? = parts.map some) (ho : o ∈ os) : ∃ part ∈ parts, o.piece? = some part := by
  have hmem : o.piece? ∈ parts.map some := h ▸ List.mem_map_of_mem ho
  obtain ⟨part, hpart, heq⟩ := List.mem_map.mp hmem
  exact ⟨part, hpart, heq.symm⟩

/-- A tree that stands for something has assembled it from its children. -/
theorem piece?_node_eq_some {n : Node} {children : List Outline} {x : Piece} :
    (node n children).piece? = some x ↔
      ∃ parts, children.map piece? = parts.map some ∧ n.kind.assemble parts = some x := by
  simp only [piece?, Option.bind_eq_some_iff, pieces?_eq_some]

end Outline

/-- What node `id` is the top of. -/
def Ast.piece? (ast : Ast) (id : NodeId) : Option Piece := (ast.outline id).piece?

end FlatScope
