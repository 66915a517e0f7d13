import Mathlib.Data.List.Forall2
import FlatScope.Proofs.Growth
import FlatScope.Proofs.Spans

/-!
# Places that are handed on

An operand is read with its place, and that of a larger operand is told from those of the operands
it joins. The parsers of `Expr.Bare` carry no places: every node they make spans the tokens from the
first of its operand to the last one read. They read the same, build the same and report the same,
and the place that an operand is read with is that of its tokens (`Expr.operand_eq`). A type is read
with its place too, and made there later (`addType_bind`).
-/

namespace FlatScope.Grammar

open FlatScope.Grammar.Parser

/-! ## Without places -/

namespace Expr.Bare

def atom (expr : TreeParser NodeId) : TreeParser NodeId := do
  let first ← position
  let kind ← choice
    [literal, stringLiteral, creation expr, nameOrCall expr, parenthesized expr]
  node first kind

def unary (operand : Nat → TreeParser NodeId) (op : UnOp) : TreeParser NodeId := do
  let first ← position
  symbol op.symbol
  let inner ← operand unaryPower
  node first (.unary op inner)

/-- `object` begins with token number `first`. -/
def access (expr : TreeParser NodeId) (first : Nat) (object : NodeId) : TreeParser NodeId := do
  symbol .dot
  let member ← identifier
  let args ← optional (arguments expr)
  node first (.accessor object member args)

/-- `left` begins with token number `first`. -/
def binary (operand : Nat → TreeParser NodeId) (first : Nat) (left : NodeId) (op : BinOp) :
    TreeParser NodeId := do
  symbol op.symbol
  let right ← operand (2 * op.level + 1)
  node first (.binary op left right)

def operandWith (operand : Nat → TreeParser NodeId) (power : Nat) : TreeParser NodeId := do
  let expr := named .expression (operand 0)
  let operators := BinOp.all.filter (power ≤ 2 * ·.level)
  let first ← position
  let start ← choice [unary operand .not, unary operand .neg, atom expr]
  extend (fun left =>
    choice (access expr first left :: operators.map (binary operand first left))) start

def operand : (fuel power : Nat) → TreeParser NodeId
  | 0 => fun _ => fail
  | fuel + 1 => operandWith (operand fuel)

end Expr.Bare

namespace Expr

variable {expr : TreeParser NodeId} {operand : Nat → TreeParser NodeId}

instance composed_arguments [expr.Composed] : (arguments expr).Composed := by
  unfold arguments
  infer_instance

instance composed_atom [expr.Composed] : (Bare.atom expr).Composed := by
  unfold Bare.atom literal stringLiteral creation nameOrCall parenthesized
  infer_instance

instance composed_unary [∀ n, (operand n).Composed] (op : UnOp) :
    (Bare.unary operand op).Composed := by
  unfold Bare.unary
  infer_instance

instance composed_access [expr.Composed] (first : Nat) (object : NodeId) :
    (Bare.access expr first object).Composed := by
  unfold Bare.access
  infer_instance

instance composed_binary [∀ n, (operand n).Composed] (first : Nat) (left : NodeId) (op : BinOp) :
    (Bare.binary operand first left op).Composed := by
  unfold Bare.binary
  infer_instance

/-- What may extend an operand. -/
theorem composed_extensions [∀ n, (operand n).Composed] (first : Nat) (left : NodeId)
    (ops : List BinOp) : ∀ p ∈ Bare.access (named .expression (operand 0)) first left ::
      ops.map (Bare.binary operand first left), p.Composed := by
  refine List.forall_mem_cons.mpr ⟨inferInstance, fun p hp => ?_⟩
  obtain ⟨op, -, rfl⟩ := List.mem_map.mp hp
  infer_instance

instance composed_step [∀ n, (operand n).Composed] (first : Nat) (left : NodeId)
    (ops : List BinOp) : (choice (Bare.access (named .expression (operand 0)) first left ::
      ops.map (Bare.binary operand first left))).Composed :=
  Composed.choice (composed_extensions first left ops)

instance composed_operandWith [∀ n, (operand n).Composed] (power : Nat) :
    (Bare.operandWith operand power).Composed := by
  unfold Bare.operandWith
  infer_instance

instance composed_operand (fuel power : Nat) : (Bare.operand fuel power).Composed := by
  induction fuel generalizing power with
  | zero => exact Composed.fail
  | succ fuel ih => exact composed_operandWith power

end Expr

/-! ## The place of what was read -/

namespace Builder.Grows

variable {b c : Builder}

theorem startOf_eq (h : b.Grows c) (i : Nat) : c.startOf i = b.startOf i := by
  simp only [Builder.startOf, h.lexemes, h.length]

theorem stopBefore_eq (h : b.Grows c) (next : Nat) : c.stopBefore next = b.stopBefore next := by
  simp only [Builder.stopBefore, h.lexemes, h.length]

theorem span_eq (h : b.Grows c) (first next : Nat) : c.span first next = b.span first next := by
  simp only [Builder.span, h.startOf_eq, h.stopBefore_eq, h.source]

end Builder.Grows

namespace Outcome

variable {o : Outcome Builder NodeId} {b c : Builder} {first : Nat}

/-- An outcome with the place of the node, from token number `first` to the last one read. -/
def placed (o : Outcome Builder NodeId) (b : Builder) (first : Nat) :
    Outcome Builder Expr.Placed :=
  ⟨o.result.map fun r => (⟨r.1, b.span first r.2.pos⟩, r.2), o.state, o.note⟩

theorem placed_of_none (h : o.result = none) : (o.placed b first).result = none := by
  rw [placed, h, Option.map_none]

theorem placed_of_some {r : NodeId × Input} (h : o.result = some r) :
    (o.placed b first).result = some (⟨r.1, b.span first r.2.pos⟩, r.2) := by
  rw [placed, h, Option.map_some]

/-- The tokens stay where they are while the tree grows. -/
theorem placed_eq_of_grows (h : b.Grows c) : o.placed c first = o.placed b first := by
  simp only [placed, h.span_eq]

end Outcome

namespace Parser

variable {α : Type} {i j : Input} {b c : Builder} {first : Nat}

/-- Reads a node with its place. -/
def placed (p : TreeParser NodeId) : TreeParser Expr.Placed := fun i b => (p i b).placed b i.pos

/-- Forgetting the place again. -/
theorem id_placed (p : TreeParser NodeId) : Expr.Placed.id <$> placed p = p := by
  funext i b
  show (placed p >>= fun a => Pure.pure a.id) i b = p i b
  cases h : (p i b).result with
  | none =>
    rw [bind_of_none (Outcome.placed_of_none h), ← h]
    rfl
  | some r =>
    rw [bind_of_some (Outcome.placed_of_some h)]
    simp only [Outcome.after, placed, Outcome.placed, Pure.pure, Parser.pure]
    rw [← show (p i b).result = some (r.1, r.2) from h]
    rfl

/-- What is read in front does not matter for the place. -/
theorem bind_placed {q : Parser Builder α} {f : α → TreeParser NodeId}
    {f' : α → TreeParser Expr.Placed}
    (h : ∀ a j d, q.Reads i c a j d → f' a j d = (f a j d).placed b first) :
    (q >>= f') i c = ((q >>= f) i c).placed b first := by
  cases hq : (q i c).result with
  | none =>
    rw [bind_of_none hq, bind_of_none hq]
    rfl
  | some r =>
    rw [bind_of_some hq, bind_of_some hq, h r.1 r.2 _ ⟨hq, rfl⟩]
    rfl

/-- An operand inside is read with its own place. -/
theorem placed_bind {p : TreeParser NodeId} {f : NodeId → TreeParser NodeId}
    {f' : Expr.Placed → TreeParser Expr.Placed} (h : ∀ id j d, p.Reads i c id j d →
      f' ⟨id, c.span i.pos j.pos⟩ j d = (f id j d).placed b first) :
    (placed p >>= f') i c = ((p >>= f) i c).placed b first := by
  cases hp : (p i c).result with
  | none =>
    rw [bind_of_none (Outcome.placed_of_none hp), bind_of_none hp]
    rfl
  | some r =>
    rw [bind_of_some (Outcome.placed_of_some hp), bind_of_some hp]
    exact congrArg (Outcome.after · (p i c)) (h r.1 r.2 _ ⟨hp, rfl⟩)

/-- An alternative is tried on what those before it left. -/
theorem choice_placed {ps : List (TreeParser NodeId)} {ps' : List (TreeParser Expr.Placed)}
    (h : List.Forall₂ (fun p p' => p.Composed ∧
      ∀ c, b.Grows c → p' i c = (p i c).placed b first) ps ps') (hb : b.Grows c) :
    choice ps' i c = (choice ps i c).placed b first := by
  induction h generalizing c with
  | nil => rfl
  | @cons p p' ps ps' hp _ ih =>
    obtain ⟨hcomposed, hp⟩ := hp
    show orElse p' (choice ps') i c = (orElse p (choice ps) i c).placed b first
    have hp' := hp c hb
    cases hr : (p i c).result with
    | none =>
      have hr' : (p' i c).result = none := hp' ▸ Outcome.placed_of_none hr
      rw [orElse_of_none hr, orElse_of_none hr', hp']
      exact congrArg (Outcome.after · (p i c)) (ih (hb.trans (grows_of_composed.grows i c)))
    | some r =>
      have hr' : (p' i c).result = some (⟨r.1, b.span first r.2.pos⟩, r.2) :=
        hp' ▸ Outcome.placed_of_some hr
      rw [orElse_of_some hr, orElse_of_some hr', hp']

/-- A larger operand begins where the smaller one did. -/
theorem extend_placed {step : NodeId → TreeParser NodeId}
    {step' : Expr.Placed → TreeParser Expr.Placed} [∀ id, (step id).Composed]
    (h : ∀ left j c, b.Grows c → left.loc.start = b.startOf first →
      step' left j c = (step left.id j c).placed b first) (id : NodeId) (hb : b.Grows c) :
    extend step' ⟨id, b.span first i.pos⟩ i c = (extend step id i c).placed b first := by
  have go : ∀ fuel id j c, b.Grows c → extendWithin step' fuel ⟨id, b.span first j.pos⟩ j c =
      (extendWithin step fuel id j c).placed b first := by
    intro fuel
    induction fuel with
    | zero => exact fun _ _ _ _ => rfl
    | succ fuel ih =>
      intro id j c hb
      have hstep := h ⟨id, b.span first j.pos⟩ j c hb rfl
      cases hr : (step id j c).result with
      | none =>
        have hr' : (step' ⟨id, b.span first j.pos⟩ j c).result = none :=
          hstep ▸ Outcome.placed_of_none hr
        rw [extendWithin_of_none hr, extendWithin_of_none hr', hstep]
        rfl
      | some r =>
        have hr' : (step' ⟨id, b.span first j.pos⟩ j c).result =
            some (⟨r.1, b.span first r.2.pos⟩, r.2) := hstep ▸ Outcome.placed_of_some hr
        rw [extendWithin_of_some hr, extendWithin_of_some hr', hstep]
        exact congrArg (Outcome.after · (step id j c))
          (ih r.1 r.2 _ (hb.trans (grows_of_composed.grows j c)))
  exact go _ id i c hb

end Parser

/-! ## Both parsers -/

namespace Expr

variable {expr : TreeParser NodeId} {operand : Nat → TreeParser NodeId} {i j : Input}
  {b c : Builder} {first : Nat}

/-- Joined from where its first token begins to where its last one ends. -/
theorem joined_eq {kind : NodeKind} {front back : Loc} (hb : b.Grows c)
    (hfront : front.start = b.startOf first) (hback : back.stop = b.stopBefore j.pos) :
    joined kind front back j c = (node first kind j c).placed b first := by
  have hloc : (⟨c.ast.source, front.start, back.stop⟩ : Loc) = b.span first j.pos := by
    rw [hb.source, hfront, hback]
    rfl
  simp only [joined, node, build, Builder.add, Outcome.placed, hloc, hb.span_eq, Option.map_some]

theorem atom_eq [expr.Composed] : atom expr = placed (Bare.atom expr) := by
  have kinds : (choice [literal, stringLiteral, creation expr, nameOrCall expr,
      parenthesized expr]).Composed := by
    unfold literal stringLiteral creation nameOrCall parenthesized
    infer_instance
  funext i b
  refine bind_placed fun first j c hfirst => ?_
  obtain ⟨rfl, rfl, rfl⟩ := reads_position.mp hfirst
  refine bind_placed fun kind j d hkind => ?_
  rw [bind_of_some rfl]
  simp only [spanFrom, node, build, Builder.add, Outcome.after, Outcome.placed,
    hkind.grows.span_eq, Option.map_some]
  rfl

theorem unary_eq [∀ n, (operand n).Composed] (op : UnOp) :
    unary (fun n => placed (operand n)) op = placed (Bare.unary operand op) := by
  funext i b
  refine bind_placed fun first j c hfirst => ?_
  obtain ⟨rfl, rfl, rfl⟩ := reads_position.mp hfirst
  refine bind_placed fun _ j c hsymbol => ?_
  have hc := hsymbol.grows
  rw [bind_of_some rfl]
  show (placed (operand unaryPower) >>= _) j c = _
  refine placed_bind fun id k d hinner => ?_
  exact joined_eq (hc.trans hinner.grows) (hc.startOf_eq _) (hc.stopBefore_eq _)

theorem access_eq [expr.Composed] {left : Placed} (hb : b.Grows c)
    (hleft : left.loc.start = b.startOf first) :
    access expr left i c = (Bare.access expr first left.id i c).placed b first := by
  rw [access, bind_of_some rfl]
  refine bind_placed fun _ j d hdot => ?_
  refine bind_placed fun name k e hname => ?_
  refine bind_placed fun args l f hargs => ?_
  have hf := hb.trans (hdot.grows.trans (hname.grows.trans hargs.grows))
  rw [bind_of_some rfl]
  exact joined_eq hf hleft (hf.stopBefore_eq _)

theorem binary_eq [∀ n, (operand n).Composed] {left : Placed} (op : BinOp) (hb : b.Grows c)
    (hleft : left.loc.start = b.startOf first) :
    binary (fun n => placed (operand n)) left op i c =
      (Bare.binary operand first left.id op i c).placed b first := by
  refine bind_placed fun _ j d hsymbol => ?_
  have hd := hb.trans hsymbol.grows
  refine placed_bind fun id k e hright => ?_
  exact joined_eq (hd.trans hright.grows) hleft (hd.stopBefore_eq _)

/-- An operand begins with a prefixed operand or with an atom. -/
theorem start_eq [∀ n, (operand n).Composed] [expr.Composed] :
    choice [unary (fun n => placed (operand n)) .not, unary (fun n => placed (operand n)) .neg,
      atom expr] = placed (choice [Bare.unary operand .not, Bare.unary operand .neg,
        Bare.atom expr]) := by
  funext i b
  have placed_of : ∀ {p : TreeParser NodeId} {p' : TreeParser Placed} [p.Composed], p' = placed p →
      p.Composed ∧ ∀ c, b.Grows c → p' i c = (p i c).placed b i.pos := by
    rintro p _ _ rfl
    exact ⟨inferInstance, fun c hc => Outcome.placed_eq_of_grows hc⟩
  exact choice_placed (.cons (placed_of (unary_eq .not)) (.cons (placed_of (unary_eq .neg))
    (.cons (placed_of atom_eq) .nil))) (.refl b)

theorem operandWith_eq [∀ n, (operand n).Composed] (power : Nat) :
    operandWith (fun n => placed (operand n)) power = placed (Bare.operandWith operand power) := by
  funext i b
  unfold operandWith Bare.operandWith
  simp only [id_placed, start_eq]
  show _ = Outcome.placed ((position >>= _) i b) b i.pos
  rw [bind_of_some (p := position) rfl]
  refine placed_bind fun start j c hstart => ?_
  refine extend_placed (fun left k d hd hleft => ?_) start hstart.grows
  refine choice_placed (.cons ⟨inferInstance, fun e he => access_eq he hleft⟩ ?_) hd
  rw [List.forall₂_map_right_iff, List.forall₂_map_left_iff, List.forall₂_same]
  exact fun op _ => ⟨inferInstance, fun e he => binary_eq op he hleft⟩

/-- The place that an operand is read with is that of its tokens. -/
theorem operand_eq (fuel : Nat) :
    Expr.operand fuel = fun power => placed (Bare.operand fuel power) := by
  induction fuel with
  | zero => rfl
  | succ fuel ih =>
    rw [Expr.operand, ih]
    exact funext operandWith_eq

end Expr

theorem expression_eq : expression =
    fun i => named .expression (Expr.Bare.operand (i.rest.length + 1) 0) i := by
  funext i
  rw [expression, Expr.operand_eq, id_placed]

instance composed_expression : expression.Composed := by
  rw [expression_eq]
  exact .fueled fun i => inferInstance

/-! ## Types -/

/-- Makes the type that token number `index` says; a class type has the class name as its child. -/
def typeNode (ty : Ty) (index : Nat) : TreeParser NodeId :=
  let put (kind : NodeKind) : TreeParser NodeId := build fun _ b => b.add kind index (index + 1)
  match ty with
  | .int => put (.type .int)
  | .float => put (.type .float)
  | .string => put (.type .string)
  | .void => put (.type .void)
  | .named name => do put (.type (.named (← put (.identifier name none))))

instance composed_typeNode (ty : Ty) (index : Nat) : (typeNode ty index).Composed := by
  have put : ∀ kind : NodeKind,
      (build fun _ b => b.add kind index (index + 1) : TreeParser NodeId).Composed :=
    fun kind => .add kind index fun _ => index + 1
  cases ty with
  | named name => exact Composed.bind
  | _ => exact put _

section

variable {α : Type} {i j : Input} {b c : Builder}

/-- Made later, a type has still the place it was read at. -/
theorem addType_bind (h : b.Grows c) (ty : Ty) (index : Nat) (f : NodeId → Parser Builder α) :
    (addType ⟨ty, b.span index (index + 1)⟩ >>= f) i c = (typeNode ty index >>= f) i c := by
  have hnode : addType ⟨ty, c.span index (index + 1)⟩ i c = typeNode ty index i c := by
    cases ty <;> rfl
  rw [← h.span_eq]
  simp only [Bind.bind, Parser.bind, hnode]

/-- A type is one token, and that is its place. -/
theorem typeAnn_eq (i : Input) (b : Builder) : typeAnn i b =
    ⟨(typeName i b).result.map fun r => (⟨r.1, b.span i.pos (i.pos + 1)⟩, r.2),
      (typeName i b).state, (typeName i b).note⟩ := by
  show (do let ty ← typeName; return ⟨ty, ← spanFrom i.pos⟩ : TreeParser TypeAnn) i b = _
  cases hr : (typeName i b).result with
  | none => rw [bind_of_none hr, Option.map_none]
  | some r =>
    have hread : typeName.Reads i b r.1 r.2 (typeName i b).state := ⟨hr, rfl⟩
    obtain ⟨t, j, ht, -, hj⟩ := spans_cons.mp (spans_of_typeName hread)
    rw [bind_of_some hr, Option.map_some, ← hread.grows.span_eq, ← ht.2, spans_nil.mp hj]
    rfl

theorem typeAnn_bind {f : Ty → Parser Builder α} {f' : TypeAnn → Parser Builder α}
    (h : ∀ ty j c, typeName.Reads i b ty j c → f' ⟨ty, b.span i.pos (i.pos + 1)⟩ j c = f ty j c) :
    (typeAnn >>= f') i b = (typeName >>= f) i b := by
  have hann := typeAnn_eq i b
  cases hr : (typeName i b).result with
  | none =>
    rw [hr, Option.map_none] at hann
    rw [bind_of_none hr, bind_of_none (congrArg Outcome.result hann), hann]
  | some r =>
    rw [hr, Option.map_some] at hann
    rw [bind_of_some hr, bind_of_some (congrArg Outcome.result hann), hann, h r.1 r.2 _ ⟨hr, rfl⟩]
    rfl

end

end FlatScope.Grammar
