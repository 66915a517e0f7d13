import FlatScope.Grammar.Builder
import FlatScope.Text.Escape

/-!
# Expressions

An operand is a prefixed operand or an atom, extended by member accesses and by operators that bind
at least as tightly as the power asked for. An operator of level `l` asks for power `2 * l` to its
left and `2 * l + 1` to its right, so that one level groups to the left; a prefixed operand has
power 14, which only member accesses exceed.

An operand is read with its place. That of an atom are the tokens read for it; where operands are
joined to a larger one its place is told from theirs.
-/

namespace FlatScope.Grammar

open FlatScope.Grammar.Parser

def identifier {σ : Type} : Parser σ String :=
  named .identifier <| select fun
    | .identifier name => some name
    | _ => none

def typeName {σ : Type} : Parser σ Ty :=
  named .type <| choice [
    do keyword .int; return .int,
    do keyword .float; return .float,
    do keyword .string; return .string,
    do keyword .void; return .void,
    do return .named (← identifier)]

def typeAnn : TreeParser TypeAnn := do
  let first ← position
  let ty ← typeName
  return ⟨ty, ← spanFrom first⟩

namespace Expr

/-- `expr` is the parser of the expressions inside. -/
def arguments (expr : TreeParser NodeId) : TreeParser NodeId :=
  named .argumentList do
    let first ← position
    let items ← between .leftParen (separatedBy expr (symbol .comma)) .rightParen
    node first (.expressions items)

def literal : TreeParser NodeKind :=
  select fun
    | .int value => some (.int value)
    | .float value => some (.float value)
    | .keyword .null => some .null
    | .keyword .this => some .this
    | _ => none

def stringLiteral : TreeParser NodeKind :=
  decoded fun raw => (Escape.unquote? raw).map .string

def creation (expr : TreeParser NodeId) : TreeParser NodeKind := do
  keyword .new
  let className ← identifier
  return .new className (some (← arguments expr))

def nameOrCall (expr : TreeParser NodeId) : TreeParser NodeKind := do
  let name ← identifier
  return .identifier name (← optional (arguments expr))

def parenthesized (expr : TreeParser NodeId) : TreeParser NodeKind :=
  .paren <$> between .leftParen expr .rightParen

/-- A node with its place. -/
structure Placed where
  id : NodeId
  loc : Loc

def atom (expr : TreeParser NodeId) : TreeParser Placed := do
  let first ← position
  let kind ← choice
    [literal, stringLiteral, creation expr, nameOrCall expr, parenthesized expr]
  let loc ← spanFrom first
  build fun _ b =>
    let (id, b) := b.addAt kind loc
    (⟨id, loc⟩, b)

/-- Makes a node from where `front` begins to where `back` ends. -/
def joined (kind : NodeKind) (front back : Loc) : TreeParser Placed :=
  build fun _ b =>
    let loc : Loc := ⟨b.ast.source, front.start, back.stop⟩
    let (id, b) := b.addAt kind loc
    (⟨id, loc⟩, b)

/-- The power of a prefixed operand. -/
def unaryPower : Nat := 14

def unary (operand : Nat → TreeParser Placed) (op : UnOp) : TreeParser Placed := do
  let first ← position
  symbol op.symbol
  let place ← spanFrom first
  let inner ← operand unaryPower
  joined (.unary op inner.id) place inner.loc

def access (expr : TreeParser NodeId) (object : Placed) : TreeParser Placed := do
  let first ← position
  symbol .dot
  let member ← identifier
  let args ← optional (arguments expr)
  let place ← spanFrom first
  joined (.accessor object.id member args) object.loc place

def binary (operand : Nat → TreeParser Placed) (left : Placed) (op : BinOp) :
    TreeParser Placed := do
  symbol op.symbol
  let right ← operand (2 * op.level + 1)
  joined (.binary op left.id right.id) left.loc right.loc

/-- `operand` parses the operands inside, each with the power it is asked for. -/
def operandWith (operand : Nat → TreeParser Placed) (power : Nat) : TreeParser Placed := do
  let expr := named .expression (Placed.id <$> operand 0)
  let operators := BinOp.all.filter (power ≤ 2 * ·.level)
  let start ← choice [unary operand .not, unary operand .neg, atom expr]
  extend (fun left => choice (access expr left :: operators.map (binary operand left))) start

/-- Operands inside stand behind a token of their own, so `fuel` bounds the tokens left. -/
def operand : (fuel power : Nat) → TreeParser Placed
  | 0 => fun _ => fail
  | fuel + 1 => operandWith (operand fuel)

end Expr

def expression : TreeParser NodeId := fun i =>
  named .expression (Expr.Placed.id <$> Expr.operand (i.rest.length + 1) 0) i

end FlatScope.Grammar
