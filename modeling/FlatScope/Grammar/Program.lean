import FlatScope.Grammar.Stmt

/-!
# Classes and programs

`entry` gives the parser of each part that a text can be read as, `unit` that of whole programs.
-/

namespace FlatScope.Grammar

open FlatScope.Grammar.Parser

/-- The body of a function. -/
def compound : TreeParser NodeId :=
  named .block do
    let first ← position
    symbol .leftCurly
    let items ← many statement
    symbol .rightCurly
    let stmts ← node first (.statements items)
    node first (.compound stmts)

def parameter : TreeParser NodeId :=
  named .parameter do
    let first ← position
    let ann ← typeAnn
    let name ← identifier
    let ty ← addType ann
    node first (.param ty name)

def parameters : TreeParser NodeId :=
  named .parameterList do
    let first ← position
    let items ← between .leftParen (separatedBy parameter (symbol .comma)) .rightParen
    node first (.params items)

/-- What follows the type and name of a member: a semicolon, or parameters and a body. -/
def memberEnd : TreeParser (Option (NodeId × NodeId)) :=
  choice [
    do symbol .semicolon; return none,
    do
      let params ← parameters
      let body ← compound
      return some (params, body)]

def member : TreeParser NodeId :=
  named .definition do
    let first ← position
    let ann ← typeAnn
    let name ← identifier
    let rest ← memberEnd
    let ty ← addType ann
    match rest with
    | none => node first (.field ty name)
    | some (params, body) => node first (.function ty name params body)

/-- The definitions span from the first member to the last; none at all leave start behind stop. -/
def members : TreeParser NodeId := do
  let first ← position
  let items ← many member
  node first (.definitions items)

def classDecl : TreeParser NodeId :=
  named .classDefinition do
    let first ← position
    keyword .class_
    let name ← identifier
    let members ← between .leftCurly members .rightCurly
    node first (.classDecl name members)

def unit : TreeParser NodeId := do
  let first ← position
  let classes ← many classDecl
  endOfInput
  node first (.compUnit classes)

/-- The parts of the language that a text can be read as. -/
inductive Entry where
  | unit
  | classDecl
  | block
  | statement
  | expression
deriving DecidableEq, Repr

def entry : Entry → TreeParser NodeId
  | .unit => unit
  | .classDecl => classDecl
  | .block => compound
  | .statement => statement
  | .expression => expression

end FlatScope.Grammar
