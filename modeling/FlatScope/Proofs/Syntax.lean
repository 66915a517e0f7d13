import FlatScope.Operator
import FlatScope.Ty

/-!
# Programs

The abstract syntax of the language as plain trees: expressions, statements, members, classes and
whole programs, without ids and without places in a source.
-/

namespace FlatScope

/-- A string stands for its value: its escapes are read already. -/
inductive Expr where
  | int (value : Nat)
  | float (value : Binary64)
  | string (value : String)
  | null
  | this
  | name (name : String)
  | call (name : String) (args : List Expr)
  | new (className : String) (args : List Expr)
  | field (object : Expr) (member : String)
  | method (object : Expr) (member : String) (args : List Expr)
  | binary (op : BinOp) (left right : Expr)
  | unary (op : UnOp) (operand : Expr)
  | paren (inner : Expr)
deriving Repr

inductive Stmt where
  | block (body : List Stmt)
  | declare (ty : Ty) (name : String)
  | assign (target value : Expr)
  | ifThen (cond : Expr) (thenBranch : Stmt)
  | ifElse (cond : Expr) (thenBranch elseBranch : Stmt)
  | whileDo (cond : Expr) (body : Stmt)
  | ret (value : Option Expr)
  | brk
  | cont
  | print (value : Expr)
  | eval (value : Expr)
deriving Repr

structure Param where
  ty : Ty
  name : String
deriving DecidableEq, Repr

inductive Member where
  | field (ty : Ty) (name : String)
  | function (ty : Ty) (name : String) (params : List Param) (body : List Stmt)
deriving Repr

structure ClassDecl where
  name : String
  members : List Member
deriving Repr

structure Program where
  classes : List ClassDecl
deriving Repr

end FlatScope
