import FlatScope.Grammar.Expr

/-!
# Statements

`statement` tries the forms of a statement in order. A declaration is a type, a name and a
semicolon; text that only begins like one is read again as an expression. An `else` belongs to the
nearest `if`.
-/

namespace FlatScope.Grammar

open FlatScope.Grammar.Parser

namespace Stmt

def condition : TreeParser NodeId := between .leftParen expression .rightParen

/-- `stmt` is the parser of the statements inside. -/
def block (stmt : TreeParser NodeId) : TreeParser NodeKind :=
  named .block do
    let first ← position
    let items ← between .leftCurly (many stmt) .rightCurly
    let stmts ← node first (.statements items)
    return .compound stmts

def declaration : TreeParser NodeKind :=
  named .declaration do
    let ann ← typeAnn
    let name ← identifier
    symbol .semicolon
    let ty ← addType ann
    return .declaration ty name

def conditional (stmt : TreeParser NodeId) : TreeParser NodeKind :=
  named .ifStatement do
    keyword .if_
    let cond ← condition
    let thenBranch ← stmt
    match ← optional (do keyword .else_; stmt) with
    | none => return .ifThen cond thenBranch
    | some elseBranch => return .ifElse cond thenBranch elseBranch

def loop (stmt : TreeParser NodeId) : TreeParser NodeKind :=
  named .whileStatement do
    keyword .while_
    let cond ← condition
    let body ← stmt
    return .whileDo cond body

def returning : TreeParser NodeKind :=
  named .returnStatement do
    keyword .return_
    let value ← optional expression
    symbol .semicolon
    return .ret value

def breaking : TreeParser NodeKind := do
  keyword .break_
  symbol .semicolon
  return .brk

def continuing : TreeParser NodeKind := do
  keyword .continue_
  symbol .semicolon
  return .cont

def printing : TreeParser NodeKind :=
  named .printStatement do
    keyword .print
    let value ← condition
    symbol .semicolon
    return .print value

def evaluation : TreeParser NodeKind := do
  let target ← expression
  let value ← optional (do symbol .assign; expression)
  symbol .semicolon
  match value with
  | none => return .eval target
  | some value => return .assignment target value

def statementWith (stmt : TreeParser NodeId) : TreeParser NodeId :=
  named .statement do
    let first ← position
    let kind ← choice [
      block stmt,
      declaration,
      conditional stmt,
      loop stmt,
      returning,
      breaking,
      continuing,
      printing,
      evaluation]
    node first kind

/-- Statements inside stand behind a token of their own, so `fuel` bounds the tokens left. -/
def statementWithin : (fuel : Nat) → TreeParser NodeId
  | 0 => fail
  | fuel + 1 => statementWith (statementWithin fuel)

end Stmt

def statement : TreeParser NodeId := fun i => Stmt.statementWithin (i.rest.length + 1) i

end FlatScope.Grammar
