import FlatScope.Grammar.Failure

/-!
# Parsers over token lists

A `Parser` reads tokens from an `Input` and builds in a state as it goes. Its `Outcome` says what
was read, what the state has become, and what the attempt adds to the record of the furthest
failure. The record cannot influence what a parser accepts, by construction. Alternatives are tried
in order and the first that succeeds is kept. A failed attempt is not undone: it leaves its mark on
the record, and what it built stays in the state.
-/

namespace FlatScope.Grammar

/-- The tokens still to be read and the index of the first of them. -/
structure Input where
  pos : Nat
  rest : List Token
deriving DecidableEq, Repr

structure Outcome (σ α : Type) where
  result : Option (α × Input)
  state : σ
  note : Furthest → Furthest

def Parser (σ α : Type) := Input → σ → Outcome σ α

namespace Parser

variable {σ α β : Type}

protected def pure (a : α) : Parser σ α := fun i s => ⟨some (a, i), s, id⟩

protected def bind (p : Parser σ α) (f : α → Parser σ β) : Parser σ β := fun i s =>
  let first := p i s
  match first.result with
  | none => ⟨none, first.state, first.note⟩
  | some (a, j) =>
    let second := f a j first.state
    ⟨second.result, second.state, fun furthest => second.note (first.note furthest)⟩

instance : Monad (Parser σ) where
  pure := Parser.pure
  bind := Parser.bind

/-- Fails and leaves no mark. -/
def fail : Parser σ α := fun _ s => ⟨none, s, id⟩

/-- The index of the next token. -/
def position : Parser σ Nat := fun i s => ⟨some (i.pos, i), s, id⟩

/-- Reads nothing and builds; `f` is told the index of the next token. -/
def build (f : Nat → σ → α × σ) : Parser σ α := fun i s =>
  let (a, s) := f i.pos s
  ⟨some (a, i), s, id⟩

/-- Reads a token that `f` accepts; `item` says which these are. -/
def satisfy (item : Item) (f : Token → Option α) : Parser σ α := fun i s =>
  let missed : Outcome σ α := ⟨none, s, fun furthest => furthest.miss i.pos item i.rest.head?⟩
  match i.rest with
  | [] => missed
  | t :: ts =>
    match f t with
    | some a => ⟨some (a, ⟨i.pos + 1, ts⟩), s, id⟩
    | none => missed

/-- Reads exactly this token. -/
def token (t : Token) : Parser σ Unit :=
  satisfy (.token t) fun u => if u = t then some () else none

def symbol (s : Symbol) : Parser σ Unit := token (.symbol s)

def keyword (k : Keyword) : Parser σ Unit := token (.keyword k)

/-- Reads a token that `f` accepts, where no single word says which these are. -/
def select (f : Token → Option α) : Parser σ α := satisfy .somethingElse f

/-- Succeeds when all tokens are read. -/
def endOfInput : Parser σ Unit := fun i s =>
  match i.rest with
  | [] => ⟨some ((), i), s, id⟩
  | t :: _ => ⟨none, s, fun furthest => furthest.miss i.pos .endOfInput (some t)⟩

/-- The first alternative, or else the second from the same place. -/
def orElse (p q : Parser σ α) : Parser σ α := fun i s =>
  let first := p i s
  match first.result with
  | some _ => first
  | none =>
    let second := q i first.state
    ⟨second.result, second.state, fun furthest => second.note (first.note furthest)⟩

def choice (alternatives : List (Parser σ α)) : Parser σ α := alternatives.foldr orElse fail

/-- Reads `p` if it is there. -/
def optional (p : Parser σ α) : Parser σ (Option α) := orElse (some <$> p) (Parser.pure none)

def manyWithin (p : Parser σ α) : Nat → Parser σ (List α)
  | 0 => Parser.pure []
  | fuel + 1 => do
    match ← optional p with
    | none => return []
    | some a => return a :: (← manyWithin p fuel)

/-- As many `p` as there are. Every `p` takes a token, so the tokens left bound their number. -/
def many (p : Parser σ α) : Parser σ (List α) := fun i => manyWithin p (i.rest.length + 1) i

/-- Any number of `p` with `separator` between them. -/
def separatedBy (p : Parser σ α) (separator : Parser σ Unit) : Parser σ (List α) := do
  match ← optional p with
  | none => return []
  | some a => return a :: (← many (do separator; p))

def extendWithin (step : α → Parser σ α) : Nat → α → Parser σ α
  | 0, a => Parser.pure a
  | fuel + 1, a => do
    match ← optional (step a) with
    | none => return a
    | some b => extendWithin step fuel b

/-- Extends `a` by `step` as often as possible. Every step takes a token. -/
def extend (step : α → Parser σ α) (a : α) : Parser σ α := fun i =>
  extendWithin step (i.rest.length + 1) a i

def between (opening : Symbol) (p : Parser σ α) (closing : Symbol) : Parser σ α := do
  symbol opening
  let a ← p
  symbol closing
  return a

/--
Reads `p` as a phrase with a name: failures at its first token are told by that name, and what was
recorded before is joined with what happens inside.
-/
def named (phrase : Phrase) (p : Parser σ α) : Parser σ α := fun i s =>
  let inner := p i s
  let record := (inner.note none).rename phrase i.pos
  ⟨inner.result, inner.state, fun furthest => furthest.merge record⟩

/--
Reads a string token and decodes it. A token of another class forgets what was recorded before; a
string that cannot be decoded is a failure of its own.
-/
def decoded (decode : String → Option α) : Parser σ α := fun i s =>
  let missed : Outcome σ α :=
    ⟨none, s, fun _ => Furthest.miss none i.pos .somethingElse i.rest.head?⟩
  match i.rest with
  | .string raw :: ts =>
    match decode raw with
    | some a => ⟨some (a, ⟨i.pos + 1, ts⟩), s, id⟩
    | none => ⟨none, s, fun furthest => furthest.merge (some ⟨i.pos, .badEscape⟩)⟩
  | _ => missed

/-- Reads all tokens with `p`, building in `s`, or says where that failed. -/
def run (p : Parser σ α) (tokens : List Token) (s : σ) : Except Furthest (α × σ) :=
  let outcome := (do let a ← p; endOfInput; return a : Parser σ α) ⟨0, tokens⟩ s
  match outcome.result with
  | some (a, _) => .ok (a, outcome.state)
  | none => .error (outcome.note none)

end Parser

end FlatScope.Grammar
