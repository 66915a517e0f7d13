import FlatScope.Grammar.Expr
import FlatScope.Proofs.Reading

/-!
# Reading only makes nodes

Parsers are put together by the combinators, and what builds in them makes nodes (`p.Composed`).
What such parsers do is shown by induction on how they are put together. `Composed` is a class, so
that a parser has only to be opened to see that it is one.

A tree under construction `Grows`: its tokens stay, and so does every node that was made. Composed
parsers do no more to it (`p.Grows`), those that fail included, for what a failed attempt made is
not taken out.
-/

namespace FlatScope.Grammar

open FlatScope.Grammar.Parser

/-- Tree `c` is `b`, maybe with more nodes. -/
structure Builder.Grows (b c : Builder) : Prop where
  lexemes : c.lexemes = b.lexemes
  length : c.length = b.length
  source : c.ast.source = b.ast.source
  keeps : ∀ id n, b.ast.get? id = some n → c.ast.get? id = some n

namespace Builder.Grows

variable {b c d : Builder}

theorem refl (b : Builder) : b.Grows b := ⟨rfl, rfl, rfl, fun _ _ hn => hn⟩

theorem trans (h : b.Grows c) (h' : c.Grows d) : b.Grows d where
  lexemes := h'.lexemes.trans h.lexemes
  length := h'.length.trans h.length
  source := h'.source.trans h.source
  keeps id n hn := h'.keeps id n (h.keeps id n hn)

theorem add (b : Builder) (kind : NodeKind) (first next : Nat) :
    b.Grows (b.add kind first next).2 :=
  ⟨rfl, rfl, rfl, fun _ _ hn => Arena.get?_insert_of_some hn⟩

end Builder.Grows

/-- Whether it reads something or not, `p` only makes nodes. -/
class Parser.Grows {α : Type} (p : Parser Builder α) : Prop where
  grows : ∀ (i : Input) (b : Builder), b.Grows (p i b).state

/--
Put together from others by the combinators. What builds in such a parser makes a node, and it sees
the tree in no other way.
-/
class inductive Parser.Composed : {α : Type} → Parser Builder α → Prop where
  | pure {α : Type} (a : α) : Composed (Pure.pure a : Parser Builder α)
  | andThen {α β : Type} {p : Parser Builder α} {f : α → Parser Builder β} :
      Composed p → (∀ a, Composed (f a)) → Composed (p >>= f)
  | fail {α : Type} : Composed (Parser.fail : Parser Builder α)
  | position : Composed (Parser.position : Parser Builder Nat)
  | add (kind : NodeKind) (first : Nat) (next : Nat → Nat) :
      Composed (build fun i b => b.add kind first (next i) : Parser Builder NodeId)
  | satisfy {α : Type} (item : Item) (f : Token → Option α) :
      Composed (Parser.satisfy item f : Parser Builder α)
  | endOfInput : Composed (Parser.endOfInput : Parser Builder Unit)
  | decoded {α : Type} (decode : String → Option α) :
      Composed (Parser.decoded decode : Parser Builder α)
  | phrase {α : Type} {p : Parser Builder α} (phrase : Phrase) :
      Composed p → Composed (Parser.named phrase p)
  | either {α : Type} {p q : Parser Builder α} :
      Composed p → Composed q → Composed (Parser.orElse p q)
  | fueled {α : Type} {f : Input → Parser Builder α} :
      (∀ i, Composed (f i)) → Composed fun i => f i i

attribute [instance] Parser.Composed.pure Parser.Composed.fail Parser.Composed.position
  Parser.Composed.satisfy Parser.Composed.endOfInput Parser.Composed.decoded

namespace Parser

instance grows_of_composed {α : Type} {p : Parser Builder α} [hp : p.Composed] : p.Grows := by
  refine ⟨fun i b => ?_⟩
  induction hp generalizing i b with
  | pure | fail | position => exact .refl b
  | @andThen _ _ p f _ _ ihp ihf =>
    show b.Grows (Parser.bind p f i b).state
    unfold Parser.bind
    dsimp only
    split
    · exact ihp i b
    · next a j _ => exact (ihp i b).trans (ihf a j _)
  | add kind first next => exact .add b kind first (next i.pos)
  | satisfy item f =>
    unfold Parser.satisfy
    dsimp only
    split
    · exact .refl b
    · split <;> exact .refl b
  | endOfInput =>
    unfold Parser.endOfInput
    split <;> exact .refl b
  | decoded decode =>
    unfold Parser.decoded
    dsimp only
    split
    · split <;> exact .refl b
    · exact .refl b
  | phrase _ _ ih => exact ih i b
  | either _ _ ihp ihq =>
    unfold Parser.orElse
    dsimp only
    split
    · exact ihp i b
    · exact (ihp i b).trans (ihq i _)
  | fueled _ ih => exact ih i i b

variable {α β : Type} {p q : Parser Builder α} {i j : Input} {b c : Builder} {a : α}

theorem Reads.grows [hp : p.Grows] (h : p.Reads i b a j c) : b.Grows c := h.2 ▸ hp.grows i b

theorem Fails.grows [hp : p.Grows] (h : p.Fails i b c) : b.Grows c := h.2 ▸ hp.grows i b

/-! ## Combinators -/

namespace Composed

instance bind {f : α → Parser Builder β} [hp : p.Composed] [hf : ∀ a, (f a).Composed] :
    (p >>= f).Composed := andThen hp hf

instance named (phrase : Phrase) [hp : p.Composed] : (Parser.named phrase p).Composed :=
  Composed.phrase phrase hp

instance orElse [hp : p.Composed] [hq : q.Composed] : (Parser.orElse p q).Composed := either hp hq

instance map (f : α → β) [p.Composed] : (f <$> p).Composed :=
  bind (f := fun a => Pure.pure (f a))

instance symbol (s : Symbol) : (Parser.symbol s : Parser Builder Unit).Composed := satisfy _ _

instance keyword (k : Keyword) : (Parser.keyword k : Parser Builder Unit).Composed := satisfy _ _

instance select (f : Token → Option α) : (Parser.select f : Parser Builder α).Composed :=
  satisfy _ _

theorem choice {ps : List (Parser Builder α)} (h : ∀ p ∈ ps, p.Composed) :
    (Parser.choice ps).Composed := by
  induction ps with
  | nil => exact fail
  | cons p ps ih =>
    obtain ⟨hp, hps⟩ := List.forall_mem_cons.mp h
    have := ih hps
    exact orElse (q := Parser.choice ps)

instance choice_nil : (Parser.choice ([] : List (Parser Builder α))).Composed := fail

instance choice_cons {ps : List (Parser Builder α)} [p.Composed] [(Parser.choice ps).Composed] :
    (Parser.choice (p :: ps)).Composed := orElse (q := Parser.choice ps)

instance optional [p.Composed] : (Parser.optional p).Composed := orElse (q := Pure.pure none)

/-- What follows an optional part depends on whether it is there. -/
theorem optional_bind {f : Option α → Parser Builder β} [p.Composed] (none : (f none).Composed)
    (some : ∀ a, (f (some a)).Composed) : (Parser.optional p >>= f).Composed :=
  have : ∀ o, (f o).Composed
    | .none => none
    | .some a => some a
  bind

instance many [p.Composed] : (Parser.many p).Composed := by
  have go : ∀ fuel, (manyWithin p fuel).Composed := by
    intro fuel
    induction fuel with
    | zero => exact pure []
    | succ fuel ih => exact optional_bind (pure []) fun _ => bind
  exact fueled (f := fun i => manyWithin p (i.rest.length + 1)) fun i => go _

instance separatedBy {separator : Parser Builder Unit} [p.Composed] [separator.Composed] :
    (Parser.separatedBy p separator).Composed := optional_bind (pure []) fun _ => bind

instance extend {step : α → Parser Builder α} [∀ a, (step a).Composed] (a : α) :
    (Parser.extend step a).Composed := by
  have go : ∀ fuel a, (extendWithin step fuel a).Composed := by
    intro fuel
    induction fuel with
    | zero => exact fun a => pure a
    | succ fuel ih => exact fun a => optional_bind (pure a) ih
  exact fueled (f := fun i => extendWithin step (i.rest.length + 1) a) fun i => go _ a

instance between (opening closing : Symbol) [p.Composed] :
    (Parser.between opening p closing).Composed := by
  unfold Parser.between
  infer_instance

end Composed

/-- An alternative is tried on what those before it left. -/
theorem Reads.exists_of_choice {ps : List (Parser Builder α)} (hps : ∀ p ∈ ps, p.Composed)
    (h : (Parser.choice ps).Reads i b a j c) :
    ∃ p ∈ ps, ∃ d, b.Grows d ∧ p.Reads i d a j c := by
  induction ps generalizing b with
  | nil => exact absurd h not_reads_fail
  | cons p ps ih =>
    obtain ⟨hp, hps⟩ := List.forall_mem_cons.mp hps
    rcases reads_choice_cons.mp h with hr | ⟨d, hf, hr⟩
    · exact ⟨p, List.mem_cons_self, b, .refl b, hr⟩
    · obtain ⟨q, hq, e, hd, hr⟩ := ih hps hr
      exact ⟨q, List.mem_cons_of_mem _ hq, e, hf.grows.trans hd, hr⟩

end Parser

/-! ## Nodes and types -/

instance composed_node (first : Nat) (kind : NodeKind) : (node first kind).Composed :=
  .add kind first fun next => next

instance composed_identifier : (identifier : Parser Builder String).Composed := by
  unfold identifier
  infer_instance

instance composed_typeName : (typeName : Parser Builder Ty).Composed := by
  unfold typeName
  infer_instance

end FlatScope.Grammar
