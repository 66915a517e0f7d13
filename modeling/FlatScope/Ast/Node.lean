import FlatScope.Arena
import FlatScope.Operator
import FlatScope.Source.Loc

/-!
# Nodes

A `Node` of a syntax tree refers to its children by id. `NodeKind.children` gives them in the order
in which they stand in the source.
-/

namespace FlatScope

inductive TypeSpec where
  | int
  | float
  | string
  | void
  /-- a class, by its name as an identifier node -/
  | named (name : NodeId)
deriving DecidableEq, Repr

inductive NodeKind where
  | compUnit (classes : List NodeId)
  | classDecl (name : String) (members : NodeId)
  | definitions (items : List NodeId)
  | field (ty : NodeId) (name : String)
  | function (ty : NodeId) (name : String) (params body : NodeId)
  | params (items : List NodeId)
  | param (ty : NodeId) (name : String)
  | type (spec : TypeSpec)
  | statements (items : List NodeId)
  | compound (stmts : NodeId)
  | declaration (ty : NodeId) (name : String)
  | assignment (target value : NodeId)
  | ifThen (cond thenBranch : NodeId)
  | ifElse (cond thenBranch elseBranch : NodeId)
  | whileDo (cond body : NodeId)
  | ret (value : Option NodeId)
  | brk
  | cont
  | print (value : NodeId)
  | eval (value : NodeId)
  | expressions (items : List NodeId)
  | int (value : Int)
  | float (value : Binary64)
  | string (value : String)
  | null
  | this
  /-- a plain name, or a call if there are arguments -/
  | identifier (name : String) (args : Option NodeId)
  | new (className : String) (args : Option NodeId)
  /-- a member of an object, called if there are arguments -/
  | accessor (object : NodeId) (member : String) (args : Option NodeId)
  | binary (op : BinOp) (left right : NodeId)
  | unary (op : UnOp) (operand : NodeId)
  | paren (inner : NodeId)
  /-- stands where reading failed -/
  | error
deriving DecidableEq, Repr

namespace NodeKind

/-- The name of the kind, as messages and tree dumps show it. -/
def name : NodeKind → String
  | compUnit .. => "comp_unit"
  | classDecl .. => "class"
  | definitions .. => "definitions"
  | field .. => "field"
  | function .. => "function"
  | params .. => "params"
  | param .. => "param"
  | type .. => "type"
  | statements .. => "statements"
  | compound .. => "compound"
  | declaration .. => "declaration"
  | assignment .. => "assignment"
  | ifThen .. => "if"
  | ifElse .. => "if_else"
  | whileDo .. => "while"
  | ret .. => "return"
  | brk => "break"
  | cont => "continue"
  | print .. => "print"
  | eval .. => "expr_stmt"
  | expressions .. => "expressions"
  | int .. => "int"
  | float .. => "float"
  | string .. => "string"
  | null => "null"
  | this => "this"
  | identifier .. => "identifier"
  | new .. => "new"
  | accessor .. => "accessor"
  | binary .. => "binary"
  | unary .. => "unary"
  | paren .. => "paren"
  | error => "error"

def children : NodeKind → List NodeId
  | compUnit items | definitions items | params items | statements items | expressions items =>
    items
  | classDecl _ members => [members]
  | field ty _ | param ty _ | declaration ty _ => [ty]
  | function ty _ ps body => [ty, ps, body]
  | type (.named name) => [name]
  | compound stmts => [stmts]
  | assignment target value => [target, value]
  | ifThen cond thenBranch => [cond, thenBranch]
  | ifElse cond thenBranch elseBranch => [cond, thenBranch, elseBranch]
  | whileDo cond body => [cond, body]
  | ret value => value.toList
  | print value | eval value | paren value => [value]
  | identifier _ args | new _ args => args.toList
  | accessor object _ args => object :: args.toList
  | binary _ left right => [left, right]
  | unary _ operand => [operand]
  | type .int | type .float | type .string | type .void => []
  | brk | cont | int _ | float _ | string _ | null | this | error => []

/-- Units and functions have a scope of their own. -/
def opensScope : NodeKind → Bool
  | compUnit _ | function .. => true
  | _ => false

end NodeKind

structure Node where
  id : NodeId
  kind : NodeKind
  loc : Loc
deriving DecidableEq, Repr

end FlatScope
