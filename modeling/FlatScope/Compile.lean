import FlatScope.Ast.Build
import FlatScope.Dump
import FlatScope.Resolve
import FlatScope.Slots

/-!
# Compiling a source

`compile` reads a program, resolves its scopes and, if asked to, numbers its locals. The result
carries all that can be told about it: the dump of the tree and a summary of every function.
-/

namespace FlatScope

structure Compiled where
  ast : Ast
  root : NodeId
  facts : Annotations
  pools : Pools

/-- Why a source was rejected. -/
inductive Rejection where
  | notInLanguage (error : SyntaxError)
  | defective (diagnostic : Diagnostic)
deriving DecidableEq, Repr

/-- Resolves the scopes of a tree and, if asked to, numbers its locals. -/
def analyse (ast : Ast) (root : NodeId) (slots : Bool) (facts : Annotations) (pools : Pools) :
    Except Diagnostic (Annotations × Pools) :=
  match Resolve.traverse ast root { facts, pools } with
  | (.error d, _) => .error d
  | (.ok (), resolved) =>
    if slots then
      match Slots.traverse ast root { facts := resolved.facts, pools := resolved.pools } with
      | (.error d, _) => .error d
      | (.ok (), numbered) => .ok (numbered.facts, numbered.pools)
    else .ok (resolved.facts, resolved.pools)

def compile (source : Nat) (text : String) (slots : Bool) : Except Rejection Compiled :=
  match Ast.parse .unit source text with
  | .error e => .error (.notInLanguage e)
  | .ok (ast, root) =>
    match analyse ast root slots .empty .empty with
    | .error d => .error (.defective d)
    | .ok (facts, pools) => .ok { ast, root, facts, pools }

/-- What is known of a function; `none` where its declaration is malformed. -/
structure Signature where
  name : String
  result : Option Ty
  params : Option (List Ty)
  frame : Option Nat
deriving DecidableEq, Repr

namespace Signature

def descriptor? (s : Signature) : Option String := do
  return methodDescriptor (← s.result) (← s.params)

/-- The line that tells a function's descriptor and the size of its frame. -/
def line (s : Signature) : String :=
  s.name ++ s.descriptor?.getD "<malformed>" ++ " locals=" ++ toString (s.frame.getD 0) ++ "\n"

end Signature

namespace Compiled

def dump (c : Compiled) (colour : Bool) : String := c.ast.dump c.facts colour c.root

def signature? (c : Compiled) (n : Node) : Option Signature :=
  match n.kind with
  | .function ty name params _ =>
    some ⟨name, c.ast.typeOf ty, c.ast.parameterTypes params, c.facts.fetch .frame n.id⟩
  | _ => none

/-- The functions in the order of the text. -/
def signatures (c : Compiled) : List Signature :=
  (c.ast.descendants c.root).filterMap c.signature?

end Compiled

end FlatScope
