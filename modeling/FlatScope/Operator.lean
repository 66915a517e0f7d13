import FlatScope.Token.Basic

/-!
# Operators

The operators of expressions, with the symbol that spells each. `BinOp.level` says how tightly an
operator binds.
-/

namespace FlatScope

/-- The binary operators, the tightest first. -/
inductive BinOp where
  | mul | div | mod | add | sub
  | lessEq | greaterEq | less | greater
  | eq | notEq | and | or
deriving DecidableEq, Repr

namespace BinOp

def all : List BinOp :=
  [mul, div, mod, add, sub, lessEq, greaterEq, less, greater, eq, notEq, and, or]

/-- How tightly the operator binds; those of one level group to the left. -/
def level : BinOp → Nat
  | mul | div | mod => 6
  | add | sub => 5
  | lessEq | greaterEq | less | greater => 4
  | eq | notEq => 3
  | and => 2
  | or => 1

def symbol : BinOp → Symbol
  | mul => .star
  | div => .slash
  | mod => .percent
  | add => .plus
  | sub => .minus
  | lessEq => .lessEqual
  | greaterEq => .greaterEqual
  | less => .less
  | greater => .greater
  | eq => .equalEqual
  | notEq => .notEqual
  | and => .conjunction
  | or => .disjunction

def text (op : BinOp) : String := op.symbol.text

end BinOp

inductive UnOp where
  | neg
  | not
deriving DecidableEq, Repr

namespace UnOp

def symbol : UnOp → Symbol
  | neg => .minus
  | not => .bang

def text (op : UnOp) : String := op.symbol.text

end UnOp

end FlatScope
