import FlatScope.Grammar.Program
import FlatScope.Proofs.Placing

/-!
# The grammar only makes nodes

Every parser of the grammar is put together by the combinators, so while any part of the language is
read, the tree under construction only grows. A declaration, a parameter and a member carry the
place of their type along; each is equal to a parser that carries the number of its token.
-/

namespace FlatScope.Grammar

open FlatScope.Grammar.Parser

/-! ## Statements -/

namespace Stmt

variable {stmt : TreeParser NodeId}

instance composed_condition : condition.Composed := by
  unfold condition
  infer_instance

instance composed_block [stmt.Composed] : (block stmt).Composed := by
  unfold block
  infer_instance

theorem declaration_eq : declaration = named .declaration (do
    let first ← position
    let ty ← typeName
    let name ← identifier
    symbol .semicolon
    let ty ← typeNode ty first
    return .declaration ty name) := by
  refine congrArg (named .declaration) (funext fun i => funext fun b => ?_)
  rw [position_bind]
  refine typeAnn_bind fun ty j c hty => bind_congr_of_reads fun name k d hname => ?_
  refine bind_congr_of_reads fun _ l e hend => ?_
  exact addType_bind (hty.grows.trans (hname.grows.trans hend.grows)) ty i.pos _

instance composed_declaration : declaration.Composed := by
  rw [declaration_eq]
  infer_instance

instance composed_conditional [stmt.Composed] : (conditional stmt).Composed := by
  have rest : ∀ cond body, (do
      match ← optional (do keyword .else_; stmt) with
      | none => return .ifThen cond body
      | some other => return .ifElse cond body other : TreeParser NodeKind).Composed :=
    fun cond body => Composed.optional_bind (.pure _) fun other => .pure _
  unfold conditional
  infer_instance

instance composed_loop [stmt.Composed] : (loop stmt).Composed := by
  unfold loop
  infer_instance

instance composed_returning : returning.Composed := by
  unfold returning
  infer_instance

instance composed_breaking : breaking.Composed := by
  unfold breaking
  infer_instance

instance composed_continuing : continuing.Composed := by
  unfold continuing
  infer_instance

instance composed_printing : printing.Composed := by
  unfold printing
  infer_instance

instance composed_evaluation : evaluation.Composed := by
  have rest : ∀ target (value : Option NodeId), (match value with
      | none => return .eval target
      | some value => return .assignment target value : TreeParser NodeKind).Composed
    | _, none => .pure _
    | _, some _ => .pure _
  unfold evaluation
  infer_instance

instance composed_statementWith [stmt.Composed] : (statementWith stmt).Composed := by
  unfold statementWith
  infer_instance

instance composed_statementWithin (fuel : Nat) : (statementWithin fuel).Composed := by
  induction fuel with
  | zero => exact Composed.fail
  | succ fuel ih => exact composed_statementWith

end Stmt

instance composed_statement : statement.Composed :=
  .fueled (f := fun i => Stmt.statementWithin (i.rest.length + 1)) fun _ =>
    Stmt.composed_statementWithin _

/-! ## Classes and programs -/

instance composed_compound : compound.Composed := by
  unfold compound
  infer_instance

theorem parameter_eq : parameter = named .parameter (do
    let first ← position
    let ty ← typeName
    let name ← identifier
    let ty ← typeNode ty first
    node first (.param ty name)) := by
  refine congrArg (named .parameter) (funext fun i => funext fun b => ?_)
  rw [position_bind, position_bind]
  refine typeAnn_bind fun ty j c hty => bind_congr_of_reads fun name k d hname => ?_
  exact addType_bind (hty.grows.trans hname.grows) ty i.pos _

instance composed_parameter : parameter.Composed := by
  rw [parameter_eq]
  infer_instance

instance composed_parameters : parameters.Composed := by
  unfold parameters
  infer_instance

instance composed_memberEnd : memberEnd.Composed := by
  unfold memberEnd
  infer_instance

theorem member_eq : member = named .definition (do
    let first ← position
    let ty ← typeName
    let name ← identifier
    let rest ← memberEnd
    let ty ← typeNode ty first
    match rest with
    | none => node first (.field ty name)
    | some (params, body) => node first (.function ty name params body)) := by
  refine congrArg (named .definition) (funext fun i => funext fun b => ?_)
  rw [position_bind, position_bind]
  refine typeAnn_bind fun ty j c hty => bind_congr_of_reads fun name k d hname => ?_
  refine bind_congr_of_reads fun rest l e hrest => ?_
  exact addType_bind (hty.grows.trans (hname.grows.trans hrest.grows)) ty i.pos _

instance composed_member : member.Composed := by
  have rest : ∀ first name ty (rest : Option (NodeId × NodeId)), (match rest with
      | none => node first (.field ty name)
      | some (params, body) => node first (.function ty name params body) :
        TreeParser NodeId).Composed
    | _, _, _, none => composed_node _ _
    | _, _, _, some _ => composed_node _ _
  rw [member_eq]
  infer_instance

instance composed_members : members.Composed := by
  unfold members
  infer_instance

instance composed_classDecl : classDecl.Composed := by
  unfold classDecl
  infer_instance

instance composed_unit : unit.Composed := by
  unfold unit
  infer_instance

/-- Whatever part of the language is read, its parser is put together from simpler ones. -/
theorem composed_entry (e : Entry) : (entry e).Composed := by
  cases e with
  | unit => exact composed_unit
  | classDecl => exact composed_classDecl
  | block => exact composed_compound
  | statement => exact composed_statement
  | expression => exact composed_expression

end FlatScope.Grammar
