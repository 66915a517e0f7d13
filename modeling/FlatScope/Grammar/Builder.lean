import FlatScope.Ast.Basic
import FlatScope.Grammar.Parser

/-!
# Making nodes while reading

A `TreeParser` builds in the arena of a syntax tree. A node is made behind its last token, by
`node`, so its children are there before it. A type is made later than it is read, by `addType`:
what begins like a declaration may still turn out to be an expression. Its place is read with it.
-/

namespace FlatScope.Grammar

/-- A tree under construction and the tokens its nodes are placed by. -/
structure Builder where
  lexemes : Array Lexeme
  /-- the number of bytes of the source -/
  length : Nat
  ast : Ast

namespace Builder

/-- Where token number `i` begins; behind the last token the source ends. -/
def startOf (b : Builder) (i : Nat) : Nat :=
  match b.lexemes[i]? with
  | some l => l.start
  | none => b.length

/-- Where the token before number `next` ends. -/
def stopBefore (b : Builder) : (next : Nat) → Nat
  | 0 => b.length
  | i + 1 =>
    match b.lexemes[i]? with
    | some l => l.stop
    | none => b.length

/-- The place from token number `first` to the one before number `next`. -/
def span (b : Builder) (first next : Nat) : Loc :=
  ⟨b.ast.source, b.startOf first, b.stopBefore next⟩

def addAt (b : Builder) (kind : NodeKind) (loc : Loc) : NodeId × Builder :=
  let (id, ast) := b.ast.add kind loc
  (id, { b with ast })

/-- Makes a node that spans from token number `first` to the one before number `next`. -/
def add (b : Builder) (kind : NodeKind) (first next : Nat) : NodeId × Builder :=
  b.addAt kind (b.span first next)

end Builder

abbrev TreeParser := Parser Builder

open FlatScope.Grammar.Parser

/-- Makes a node that spans from token number `first` to the last one read. -/
def node (first : Nat) (kind : NodeKind) : TreeParser NodeId :=
  build fun next b => b.add kind first next

/-- The place from token number `first` to the last one read. -/
def spanFrom (first : Nat) : TreeParser Loc :=
  build fun next b => (b.span first next, b)

/-- A type as it was read, with its place. -/
structure TypeAnn where
  ty : Ty
  loc : Loc

/-- Makes a type where it was read; a class type has the class name as its child. -/
def addType (ann : TypeAnn) : TreeParser NodeId :=
  let put (kind : NodeKind) : TreeParser NodeId := build fun _ b => b.addAt kind ann.loc
  match ann.ty with
  | .int => put (.type .int)
  | .float => put (.type .float)
  | .string => put (.type .string)
  | .void => put (.type .void)
  | .named name => do put (.type (.named (← put (.identifier name none))))

end FlatScope.Grammar
