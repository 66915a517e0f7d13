import FlatScope.Token.Basic

/-!
# Where reading a program got stuck

A parser that tries alternatives fails in many places. `Furthest` keeps the failure at the greatest
token index, together with what could have stood there. `Furthest.miss` records one more failed
token, `Furthest.merge` joins two records, and `Furthest.rename` replaces the details at the start
of a phrase by the phrase's name.
-/

namespace FlatScope.Grammar

/-- The phrases that messages name as a whole. -/
inductive Phrase where
  | identifier
  | type
  | parameter
  | parameterList
  | definition
  | classDefinition
  | block
  | declaration
  | ifStatement
  | whileStatement
  | returnStatement
  | printStatement
  | statement
  | expression
  | argumentList
deriving DecidableEq, Repr

def Phrase.name : Phrase → String
  | identifier => "identifier"
  | type => "type"
  | parameter => "parameter"
  | parameterList => "parameter list"
  | definition => "field or function definition"
  | classDefinition => "class definition"
  | block => "block"
  | declaration => "declaration"
  | ifStatement => "if statement"
  | whileStatement => "while statement"
  | returnStatement => "return statement"
  | printStatement => "print statement"
  | statement => "statement"
  | expression => "expression"
  | argumentList => "argument list"

/-- Something that could have stood in a place. -/
inductive Item where
  | token (token : Token)
  | phrase (phrase : Phrase)
  | somethingElse
  | endOfInput
deriving DecidableEq, Repr

def Item.text : Item → String
  | token t => "''" ++ t.text ++ "''"
  | phrase p => p.name
  | somethingElse => "something else"
  | endOfInput => "end of input"

/-- Why reading stopped: something else stood there, or a string literal holds a bad escape. -/
inductive Cause where
  | expected (items : List Item) (found : Option Token)
  | badEscape
deriving DecidableEq, Repr

namespace Cause

def found : Cause → Option Token
  | expected _ found => found
  | badEscape => none

/-- The longer list, the first if they are equally long, then what only the other one holds. -/
def joinItems (xs ys : List Item) : List Item :=
  let extend (long short : List Item) :=
    short.foldl (fun items item => if item ∈ items then items else items ++ [item]) long
  if xs.length < ys.length then extend ys xs else extend xs ys

/-- Two causes in one place; a bad escape hides the rest, and the first says what was found. -/
def merge : Cause → Cause → Cause
  | badEscape, _ => badEscape
  | _, badEscape => badEscape
  | expected xs found, expected ys _ => expected (joinItems xs ys) found

end Cause

/-- A failure at token number `pos`. -/
structure Failure where
  pos : Nat
  cause : Cause
deriving DecidableEq, Repr

abbrev Furthest := Option Failure

namespace Furthest

/-- Records that `item` was looked for at `pos` and `token` was there. -/
def miss (furthest : Furthest) (pos : Nat) (item : Item) (token : Option Token) : Furthest :=
  match furthest with
  | none => some ⟨pos, .expected [item] token⟩
  | some old =>
    if old.pos < pos then some ⟨pos, .expected [item] token⟩
    else if pos < old.pos then some old
    else match old.cause with
      | .badEscape => some old
      | .expected items found =>
        some ⟨pos, .expected (if item ∈ items then items else items ++ [item]) (found.or token)⟩

/-- The later of two records; in one place both causes count. -/
def merge : Furthest → Furthest → Furthest
  | none, other => other
  | old, none => old
  | some old, some other =>
    if old.pos < other.pos then some other
    else if other.pos < old.pos then some old
    else some ⟨old.pos, old.cause.merge other.cause⟩

/-- A failure at the first token of a phrase is told by the phrase's name. -/
def rename (phrase : Phrase) (start : Nat) : Furthest → Furthest
  | none => none
  | some failure =>
    if failure.pos = start then some ⟨start, .expected [.phrase phrase] failure.cause.found⟩
    else some failure

end Furthest

end FlatScope.Grammar
