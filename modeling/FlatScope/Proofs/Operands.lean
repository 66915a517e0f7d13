import FlatScope.Proofs.Building
import FlatScope.Proofs.Grouping
import FlatScope.Proofs.Refusal

/-!
# Every grouped expression is read

`Stops power j`: an operand read with this power ends at `j`. A grouped expression is read as a
start and a row of extensions, accesses and operators, that grow it from the left: `Spine`. The
inside of a grouped expression is read the same way, so `operand` builds every grouped expression
that fits the power asked for (`builds_operand`), and `expression` every grouped expression.
-/

namespace FlatScope

theorem BinOp.mem_all (op : BinOp) : op ∈ BinOp.all := by cases op <;> decide

theorem BinOp.symbol_inj {op other : BinOp} (h : op.symbol = other.symbol) : op = other := by
  cases op <;> cases other <;> first | rfl | cases h

theorem BinOp.level_le (op : BinOp) : op.level ≤ 6 := by cases op <;> decide

/-- Symbols that end every expression in front of them. -/
def Symbol.endsExpr : Symbol → Bool
  | .rightParen | .comma | .semicolon | .assign => true
  | _ => false

theorem BinOp.not_endsExpr (op : BinOp) : op.symbol.endsExpr = false := by cases op <;> rfl

/-- An operand asked for with this power may be `e`. -/
def Expr.fits (power : Nat) : Expr → Prop
  | .binary op _ _ => power ≤ 2 * op.level
  | _ => True

theorem Expr.fits_zero (e : Expr) : e.fits 0 := by
  cases e with
  | binary => exact Nat.zero_le _
  | _ => trivial

theorem Expr.fits_of_not_isBinary {e : Expr} (h : e.isBinary = false) (power : Nat) :
    e.fits power := by
  cases e with
  | binary => cases h
  | _ => trivial

theorem Expr.fits_of_bindsAt {e : Expr} {n power : Nat} (h : e.bindsAt n) (hp : power ≤ 2 * n) :
    e.fits power := by
  cases e with
  | binary op left right =>
    have hn : n ≤ op.rank := by simpa [bindsAt] using h
    show power ≤ 2 * op.level
    rw [op.level_eq_rank]
    omega
  | _ => trivial

namespace Grammar

open FlatScope.Grammar.Parser

variable {i j k : Input} {e : Expr} {fuel power : Nat}

/-! ## Where operands end -/

structure Stops (power : Nat) (j : Input) : Prop where
  paren : j.next? ≠ some (.symbol .leftParen)
  dot : j.next? ≠ some (.symbol .dot)
  operator : ∀ op : BinOp, j.next? = some (.symbol op.symbol) → 2 * op.level < power

theorem Stops.mono {n m : Nat} (h : Stops n j) (hle : n ≤ m) : Stops m j where
  paren := h.paren
  dot := h.dot
  operator op hop := by
    have := h.operator op hop
    omega

theorem stops_of_next {s : Symbol} (h : j.next? = some (.symbol s)) (hs : s.endsExpr) (n : Nat) :
    Stops n j := by
  have ne : ∀ s', s'.endsExpr = false → j.next? ≠ some (.symbol s') := by
    intro s' hs' eq
    rw [h] at eq
    cases eq
    rw [hs] at hs'
    cases hs'
  exact ⟨ne _ rfl, ne _ rfl, fun op hop => absurd hop (ne _ op.not_endsExpr)⟩

/-- An operator ends every operand that binds tighter than it. -/
theorem stops_of_operator {op : BinOp} (h : j.next? = some (.symbol op.symbol)) {n : Nat}
    (hn : 2 * op.level < n) : Stops n j := by
  have ne : ∀ s, op.symbol ≠ s → j.next? ≠ some (.symbol s) := by
    intro s hs eq
    rw [h] at eq
    cases eq
    exact hs rfl
  refine ⟨ne _ (by cases op <;> decide), ne _ (by cases op <;> decide), fun other hother => ?_⟩
  have eq : op.symbol = other.symbol := by simpa [h] using hother
  exact BinOp.symbol_inj eq ▸ hn

/-- What the inside of `e` needs to end at `j`. -/
def Closed (e : Expr) (j : Input) : Prop :=
  match e with
  | .binary op _ _ => Stops (2 * op.level + 1) j
  | .unary _ _ => Stops Expr.unaryPower j
  | _ => j.next? ≠ some (.symbol .leftParen)

theorem Stops.closed (h : Stops power j) (hf : e.fits power) : Closed e j := by
  cases e with
  | binary op left right => exact h.mono (Nat.le_succ_of_le hf)
  | unary op operand =>
    refine ⟨h.paren, h.dot, fun op _ => ?_⟩
    have := op.level_le
    show 2 * op.level < 14
    omega
  | _ => exact h.paren

theorem closed_of_operator {op : BinOp} (h : j.next? = some (.symbol op.symbol))
    (hb : e.bindsAt op.rank) : Closed e j := by
  cases e with
  | binary op' left right =>
    have hle : op.rank ≤ op'.rank := by simpa [Expr.bindsAt] using hb
    rw [← op.level_eq_rank, ← op'.level_eq_rank] at hle
    exact stops_of_operator h (by omega)
  | unary op' operand =>
    have := op.level_le
    exact stops_of_operator h (by show 2 * op.level < 14; omega)
  | _ => exact (stops_of_operator h (Nat.lt_succ_self _)).paren

theorem closed_of_dot (h : j.next? = some (.symbol .dot)) (hb : e.isBinary = false)
    (hu : e.isUnary = false) : Closed e j := by
  cases e with
  | binary => cases hb
  | unary => cases hu
  | _ =>
    show j.next? ≠ _
    rw [h]
    simp

/-! ## Starts and extensions -/

namespace Expr

/-- What an operand starts with, its inside read with this fuel. -/
abbrev start (fuel : Nat) : TreeParser NodeId :=
  choice [Bare.unary (Bare.operand fuel) .not, Bare.unary (Bare.operand fuel) .neg,
    Bare.atom (named .expression (Bare.operand fuel 0))]

/-- One extension of an operand that begins with token number `first`. -/
abbrev step (fuel power first : Nat) (left : NodeId) : TreeParser NodeId :=
  choice (Bare.access (named .expression (Bare.operand fuel 0)) first left ::
    (BinOp.all.filter (power ≤ 2 * ·.level)).map (Bare.binary (Bare.operand fuel) first left))

theorem reads_operand_succ {b c d : Builder} {h f : NodeId}
    (hstart : (start fuel).Reads i b h k c)
    (hext : Extends (step fuel power i.pos) h k c f j d) :
    (Bare.operand (fuel + 1) power).Reads i b f j d :=
  Reads.position (hstart.bind hext.reads)

/-- Where the operand ends, no extension is read. -/
theorem refuses_step (h : Stops power j) (first : Nat) (left : NodeId) :
    (step fuel power first left).Refuses j := by
  refine refuses_choice fun p hp => ?_
  rcases List.mem_cons.mp hp with rfl | hp
  · exact (refuses_symbol h.dot).bind _
  · obtain ⟨op, hop, rfl⟩ := List.mem_map.mp hp
    have hle : power ≤ 2 * op.level := by simpa using (List.mem_filter.mp hop).2
    refine (refuses_symbol fun eq => ?_).bind _
    have := h.operator op eq
    omega

/-- An operator that the power allows is the extension that is read. -/
theorem reads_step_binary {op : BinOp} {first : Nat} {left f : NodeId} {b c : Builder}
    (hp : power ≤ 2 * op.level) (hnext : k.next? = some (.symbol op.symbol))
    (h : (Bare.binary (Bare.operand fuel) first left op).Reads k b f j c) :
    (step fuel power first left).Reads k b f j c := by
  have refuses : ∀ other : BinOp, other ≠ op →
      (Bare.binary (Bare.operand fuel) first left other).Refuses k := by
    intro other ne
    refine (refuses_symbol fun eq => ?_).bind _
    have : op.symbol = other.symbol := by simpa [hnext] using eq
    exact ne (BinOp.symbol_inj this).symm
  have dot : (Bare.access (named .expression (Bare.operand fuel 0)) first left).Refuses k :=
    (refuses_symbol (stops_of_operator hnext (Nat.lt_succ_self _)).dot).bind _
  have hmem : op ∈ BinOp.all.filter (power ≤ 2 * ·.level) := by
    simp [BinOp.mem_all, hp]
  obtain ⟨before, after, hsplit, hnot⟩ := List.eq_append_cons_of_mem hmem
  unfold step
  rw [hsplit, List.map_append, List.map_cons]
  refine h.choice (_ :: _) ?_
  rintro p hp
  rcases List.mem_cons.mp hp with rfl | hp
  · exact dot
  · obtain ⟨other, hother, rfl⟩ := List.mem_map.mp hp
    exact refuses other fun eq => hnot (eq ▸ hother)

theorem reads_step_access {first : Nat} {left f : NodeId} {b c : Builder}
    (h : (Bare.access (named .expression (Bare.operand fuel 0)) first left).Reads k b f j c) :
    (step fuel power first left).Reads k b f j c :=
  h.choice [] (by simp)

end Expr

/-! ## Reading along the left edge -/

/--
From `i` on a start and a row of extensions build the tree of `e` up to `j`: whatever extends that
tree further, extends the start.
-/
def Spine (fuel power : Nat) (e : Expr) (i j : Input) : Prop :=
  ∀ b : Builder, b.ast.nodes.free = [] → ∃ h k c o d, (Expr.start fuel).Reads i b h k c ∧
    (∀ f l u, Extends (Expr.step fuel power i.pos) o.id j d f l u →
      Extends (Expr.step fuel power i.pos) h k c f l u) ∧
    b.ast.Adds d.ast [o] ∧ o.piece? = some (.expr e)

theorem Spine.of_start (h : (Expr.start fuel).Builds (.expr e) i j) : Spine fuel power e i j := by
  intro b hb
  obtain ⟨o, c, hr, hadds, ho⟩ := h b hb
  exact ⟨o.id, j, c, o, c, hr, fun _ _ _ hext => hext, hadds, ho⟩

/-- One more extension, which joins the tree of `left` into that of `e`. -/
theorem Spine.extend {left : Expr} (h : Spine fuel power left i k)
    (hlt : j.rest.length < k.rest.length)
    (hstep : ∀ (a : Ast) (o : Outline) (c : Builder), a.Adds c.ast [o] →
      o.piece? = some (.expr left) →
      ∃ o' d, (Expr.step fuel power i.pos o.id).Reads k c o'.id j d ∧ a.Adds d.ast [o'] ∧
        o'.piece? = some (.expr e)) : Spine fuel power e i j := by
  intro b hb
  obtain ⟨h₀, k₀, c₀, o, c, hstart, hext, hadds, ho⟩ := h b hb
  obtain ⟨o', d, hr, hadds', ho'⟩ := hstep b.ast o c hadds ho
  refine ⟨h₀, k₀, c₀, o', d, hstart, fun f l u hfurther => ?_, hadds', ho'⟩
  exact hext f l u (.step hr hlt hfurther)

/-- Where the operand ends the row of extensions ends. -/
theorem Spine.builds (h : Spine fuel power e i j) (stop : Stops power j) :
    (Expr.Bare.operand (fuel + 1) power).Builds (.expr e) i j := by
  intro b hb
  obtain ⟨h₀, k, c, o, d, hstart, hext, hadds, ho⟩ := h b hb
  have hstop : Extends (Expr.step fuel power i.pos) o.id j d o.id j d :=
    .stop (Expr.refuses_step stop i.pos o.id)
  exact ⟨o, d, Expr.reads_operand_succ hstart (hext _ _ _ hstop), hadds, ho⟩

/-- The words of `e` are read as `e` wherever they end. -/
def Readable (e : Expr) : Prop :=
  ∀ fuel power i j, i.rest.length ≤ fuel → e.fits power → Spans i e.words j → Closed e j →
    Spine fuel power e i j

theorem Readable.builds (h : Readable e) (hlt : i.rest.length < fuel) (hf : e.fits power)
    (hs : Spans i e.words j) (stop : Stops power j) :
    (Expr.Bare.operand fuel power).Builds (.expr e) i j := by
  obtain ⟨fuel, rfl⟩ : ∃ n, fuel = n + 1 := ⟨fuel - 1, by omega⟩
  exact (h fuel power i j (by omega) hf hs (stop.closed hf)).builds stop

/-! ## Arguments -/

namespace Expr

theorem builds_arguments {args : List Expr} (h : ∀ a ∈ args, Readable a)
    (hlt : i.rest.length ≤ fuel) (hs : Spans i (inParens (separated (args.map Expr.words))) j) :
    (arguments (named .expression (Bare.operand fuel 0))).Builds (.exprs args) i j := by
  obtain ⟨k, l, hk, hargs, hl⟩ := spans_inParens.mp hs
  have hklt := hk.rest_lt
  have items : (separatedBy (named .expression (Bare.operand fuel 0)) (symbol .comma)).BuildsEach
      (args.map .expr) k l := by
    refine builds_separatedBy (Q := Stops 0) ?_ ?_ ?_ ?_ ?_ hargs
    · intro a ha m n hm hspans stop
      exact (h a ha).builds (by omega) a.fits_zero hspans stop
    · exact fun m hm => stops_of_next hm rfl 0
    · exact stops_of_next hl.next? rfl 0
    · rw [hl.next?]
      simp
    · exact refuses_operand (Input.lacks_of_next hl.next? rfl) fuel 0
  refine Builds.named (Builds.position ?_) _
  exact (items.between hk hl).node (fun _ => rfl)
    (fun _ => NodeKind.assemble_expressions args) i.pos

/-! ## The parts of an operand -/

variable {expr : TreeParser NodeId}

/-- An atom is read where no prefix operator stands. -/
theorem spine_atom (h : (Bare.atom (named .expression (Bare.operand fuel 0))).Builds (.expr e) i j)
    (hb : i.next? ≠ some (.symbol .bang)) (hm : i.next? ≠ some (.symbol .minus)) :
    Spine fuel power e i j := by
  refine Spine.of_start (h.choice [_, _] ?_)
  intro p hp
  simp only [List.mem_cons, List.not_mem_nil, or_false] at hp
  rcases hp with rfl | rfl
  · exact refuses_unary hb
  · exact refuses_unary hm

theorem builds_literal (kind : NodeKind) (hl : ∀ b : Builder, literal.Reads i b kind j b)
    (hk : kind.children = []) (hx : kind.assemble [] = some (.expr e)) :
    (Bare.atom expr).Builds (.expr e) i j := by
  refine Builds.position ?_
  exact ((forms_leaf kind hl hk hx).choice [] (by simp)).node i.pos

theorem builds_string {raw value : String} (ht : i.Takes (.string raw) j)
    (hv : Escape.unquote? raw = some value) :
    (Bare.atom expr).Builds (.expr (.string value)) i j := by
  have hr : ∀ b : Builder, stringLiteral.Reads i b (.string value) j b := fun b =>
    reads_decoded.mpr ⟨⟨raw, ht, by rw [hv]; rfl⟩, rfl⟩
  refine Builds.position ?_
  refine ((forms_leaf _ hr rfl rfl).choice [_] ?_).node i.pos
  intro q hq
  obtain rfl := List.mem_singleton.mp hq
  exact refuses_literal (ht.lacks rfl)

theorem builds_creation {className : String} {args : List Expr} {l : Input}
    (hi : i.Takes (.keyword .new) k) (hk : k.Takes (.identifier className) l)
    (hargs : (arguments expr).Builds (.exprs args) l j) :
    (Bare.atom expr).Builds (.expr (.new className args)) i j := by
  have hforms : (creation expr).Forms (.expr (.new className args)) i j := by
    intro b hb
    obtain ⟨o, c, hr, hadds, ho⟩ := hargs b hb
    refine ⟨.new className (some o.id), [o], c, ?_, hadds, rfl, [.exprs args], by simp [ho], rfl⟩
    have hname : identifier.Reads k b className l b := reads_identifier.mpr ⟨hk, rfl⟩
    exact .keyword hi (hname.bind (hr.bind (reads_pure.mpr ⟨rfl, rfl, rfl⟩)))
  refine Builds.position ?_
  refine (hforms.choice [_, _] ?_).node i.pos
  intro q hq
  simp only [List.mem_cons, List.not_mem_nil, or_false] at hq
  rcases hq with rfl | rfl
  · exact refuses_literal (hi.lacks rfl)
  · exact refuses_decoded fun raw => hi.next_ne (by simp)

/-- A name, with its arguments if there are any. -/
theorem builds_nameOrCall {name : String} (hi : i.Takes (.identifier name) k)
    (h : (nameOrCall expr).Forms (.expr e) i j) : (Bare.atom expr).Builds (.expr e) i j := by
  refine Builds.position ?_
  refine (h.choice [_, _, _] ?_).node i.pos
  intro q hq
  simp only [List.mem_cons, List.not_mem_nil, or_false] at hq
  rcases hq with rfl | rfl | rfl
  · exact refuses_literal (hi.lacks rfl)
  · exact refuses_decoded fun raw => hi.next_ne (by simp)
  · exact (refuses_keyword (hi.next_ne (by simp))).bind _

theorem forms_name {name : String} (hi : i.Takes (.identifier name) j)
    (hj : j.next? ≠ some (.symbol .leftParen)) :
    (nameOrCall expr).Forms (.expr (.name name)) i j := by
  refine forms_leaf (.identifier name none) (fun b => ?_) rfl rfl
  have hname : identifier.Reads i b name j b := reads_identifier.mpr ⟨hi, rfl⟩
  exact hname.bind ((refuses_arguments hj).optional.bind (reads_pure.mpr ⟨rfl, rfl, rfl⟩))

theorem forms_call {name : String} {args : List Expr} (hi : i.Takes (.identifier name) k)
    (hargs : (arguments expr).Builds (.exprs args) k j) :
    (nameOrCall expr).Forms (.expr (.call name args)) i j := by
  intro b hb
  obtain ⟨o, c, hr, hadds, ho⟩ := hargs b hb
  refine ⟨.identifier name (some o.id), [o], c, ?_, hadds, rfl, [.exprs args], by simp [ho], rfl⟩
  have hname : identifier.Reads i b name k b := reads_identifier.mpr ⟨hi, rfl⟩
  exact hname.bind (hr.optional.bind (reads_pure.mpr ⟨rfl, rfl, rfl⟩))

theorem builds_paren {inner : Expr} {l : Input} (hi : i.Takes (.symbol .leftParen) k)
    (h : expr.Builds (.expr inner) k l) (hl : l.Takes (.symbol .rightParen) j) :
    (Bare.atom expr).Builds (.expr (.paren inner)) i j := by
  have hforms : (parenthesized expr).Forms (.expr (.paren inner)) i j := by
    intro b hb
    obtain ⟨o, c, hr, hadds, ho⟩ := h b hb
    refine ⟨.paren o.id, [o], c, ?_, hadds, rfl, [.expr inner], by simp [ho], rfl⟩
    exact (reads_between.mpr ⟨k, l, hi, hr, hl⟩).map _
  refine Builds.position ?_
  refine (hforms.choice [_, _, _, _] ?_).node i.pos
  intro q hq
  simp only [List.mem_cons, List.not_mem_nil, or_false] at hq
  rcases hq with rfl | rfl | rfl | rfl
  · exact refuses_literal (hi.lacks rfl)
  · exact refuses_decoded fun raw => hi.next_ne (by simp)
  · exact (refuses_keyword (hi.next_ne (by simp))).bind _
  · exact (refuses_identifier fun name => hi.next_ne (by simp)).bind _

theorem builds_unary {operand : Nat → TreeParser NodeId} {op : UnOp} {inner : Expr}
    (hi : i.Takes (.symbol op.symbol) k) (h : (operand unaryPower).Builds (.expr inner) k j) :
    (Bare.unary operand op).Builds (.expr (.unary op inner)) i j := by
  intro b hb
  obtain ⟨o, c, hr, hadds, ho⟩ := h b hb
  have hs : Stands (.unary op o.id) [o] (.expr (.unary op inner)) :=
    ⟨rfl, [.expr inner], by simp [ho], rfl⟩
  obtain ⟨o', d, hnode, hadds', ho'⟩ := exists_node hadds hs i.pos j
  exact ⟨o', d, .position (.symbol hi (hr.bind hnode)), hadds', ho'⟩

theorem spine_binary {op : BinOp} {left right : Expr} {l : Input}
    (hleft : Spine fuel power left i k) (hp : power ≤ 2 * op.level)
    (hk : k.Takes (.symbol op.symbol) l) (hle : j.rest.length ≤ l.rest.length)
    (hright : (Bare.operand fuel (2 * op.level + 1)).Builds (.expr right) l j) :
    Spine fuel power (.binary op left right) i j := by
  have hlt := hk.rest_lt
  refine hleft.extend (by omega) fun a o c hadds ho => ?_
  obtain ⟨r, d, hr, hadds', ho'⟩ := hright c hadds.full
  have hs : Stands (.binary op o.id r.id) [o, r] (.expr (.binary op left right)) :=
    ⟨rfl, [.expr left, .expr right], by simp [ho, ho'], rfl⟩
  obtain ⟨o', u, hnode, hadds'', hx⟩ := exists_node (hadds.trans hadds') hs i.pos j
  exact ⟨o', u, reads_step_binary hp hk.next? (.symbol hk (hr.bind hnode)), hadds'', hx⟩

theorem spine_field {object : Expr} {member : String} {l : Input}
    (hobject : Spine fuel power object i k) (hk : k.Takes (.symbol .dot) l)
    (hl : l.Takes (.identifier member) j) (hj : j.next? ≠ some (.symbol .leftParen)) :
    Spine fuel power (.field object member) i j := by
  have hlt := hk.rest_lt
  have hlt' := hl.rest_lt
  refine hobject.extend (by omega) fun a o c hadds ho => ?_
  have hs : Stands (.accessor o.id member none) [o] (.expr (.field object member)) :=
    ⟨rfl, [.expr object], by simp [ho], rfl⟩
  obtain ⟨o', u, hnode, hadds', hx⟩ := exists_node hadds hs i.pos j
  have hname : identifier.Reads l c member j c := reads_identifier.mpr ⟨hl, rfl⟩
  refine ⟨o', u, reads_step_access ?_, hadds', hx⟩
  exact .symbol hk (hname.bind ((refuses_arguments hj).optional.bind hnode))

theorem spine_method {object : Expr} {member : String} {args : List Expr} {l m : Input}
    (hobject : Spine fuel power object i k) (hk : k.Takes (.symbol .dot) l)
    (hl : l.Takes (.identifier member) m) (hle : j.rest.length ≤ m.rest.length)
    (hargs : (arguments (named .expression (Bare.operand fuel 0))).Builds (.exprs args) m j) :
    Spine fuel power (.method object member args) i j := by
  have hlt := hk.rest_lt
  have hlt' := hl.rest_lt
  refine hobject.extend (by omega) fun a o c hadds ho => ?_
  obtain ⟨r, d, hr, hadds', ho'⟩ := hargs c hadds.full
  have hs : Stands (.accessor o.id member (some r.id)) [o, r]
      (.expr (.method object member args)) :=
    ⟨rfl, [.expr object, .exprs args], by simp [ho, ho'], rfl⟩
  obtain ⟨o', u, hnode, hadds'', hx⟩ := exists_node (hadds.trans hadds') hs i.pos j
  have hname : identifier.Reads l c member m c := reads_identifier.mpr ⟨hl, rfl⟩
  refine ⟨o', u, reads_step_access ?_, hadds'', hx⟩
  exact .symbol hk (hname.bind (hr.optional.bind hnode))

/-! ## One construct around others -/

/-- A literal of one token stands alone. -/
theorem readable_literal {t : Token} (kind : NodeKind)
    (ht : ∀ i j, Spans i e.words j → i.Takes t j)
    (hl : ∀ (i j : Input) (b : Builder), i.Takes t j → literal.Reads i b kind j b)
    (hk : kind.children = []) (hx : kind.assemble [] = some (.expr e))
    (hb : t ≠ .symbol .bang) (hm : t ≠ .symbol .minus) : Readable e := by
  intro fuel power i j _ _ hs _
  have hi := ht i j hs
  exact spine_atom (builds_literal kind (fun b => hl i j b hi) hk hx) (hi.next_ne hb)
    (hi.next_ne hm)

theorem readable_string (value : String) : Readable (.string value) := by
  intro fuel power i j _ _ hs _
  obtain ⟨t, k, hi, hw, hs⟩ := spans_cons.mp hs
  obtain ⟨raw, rfl, hv⟩ := Token.word?_eq_text.mp hw
  obtain rfl := spans_nil.mp hs
  exact spine_atom (builds_string hi hv) (hi.next_ne (by simp)) (hi.next_ne (by simp))

theorem readable_name (name : String) : Readable (.name name) := by
  intro fuel power i j _ _ hs hclosed
  obtain ⟨_, hi, rfl⟩ : ∃ k, i.Takes (.identifier name) k ∧ k = j := by
    simpa [Expr.words] using hs
  exact spine_atom (builds_nameOrCall hi (forms_name hi hclosed)) (hi.next_ne (by simp))
    (hi.next_ne (by simp))

theorem readable_call (name : String) {args : List Expr} (h : ∀ a ∈ args, Readable a) :
    Readable (.call name args) := by
  intro fuel power i j hle _ hs _
  rw [Expr.words, Expr.wordsOfEach_eq_map] at hs
  obtain ⟨k, hi, hargs⟩ := spans_name.mp hs
  have hlt := hi.rest_lt
  have hb : (arguments (named .expression (Bare.operand fuel 0))).Builds (.exprs args) k j :=
    builds_arguments h (by omega) hargs
  exact spine_atom (builds_nameOrCall hi (forms_call hi hb)) (hi.next_ne (by simp))
    (hi.next_ne (by simp))

theorem readable_new (className : String) {args : List Expr} (h : ∀ a ∈ args, Readable a) :
    Readable (.new className args) := by
  intro fuel power i j hle _ hs _
  rw [Expr.words, Expr.wordsOfEach_eq_map] at hs
  obtain ⟨k, hi, hs⟩ := spans_keyword.mp hs
  obtain ⟨l, hk, hargs⟩ := spans_name.mp hs
  have hlt := hi.rest_lt
  have hlt' := hk.rest_lt
  have hb : (arguments (named .expression (Bare.operand fuel 0))).Builds (.exprs args) l j :=
    builds_arguments h (by omega) hargs
  exact spine_atom (builds_creation hi hk hb) (hi.next_ne (by simp)) (hi.next_ne (by simp))

theorem readable_field {object : Expr} (member : String) (h : Readable object)
    (hb : object.isBinary = false) (hu : object.isUnary = false) :
    Readable (.field object member) := by
  intro fuel power i j hle _ hs hclosed
  obtain ⟨k, hspans, hs⟩ := spans_append.mp hs
  obtain ⟨l, hk, hs⟩ := spans_symbol.mp hs
  obtain ⟨m, hl, hs⟩ := spans_name.mp hs
  obtain rfl := spans_nil.mp hs
  have hspine : Spine fuel power object i k :=
    h fuel power i k hle (Expr.fits_of_not_isBinary hb power) hspans (closed_of_dot hk.next? hb hu)
  exact spine_field hspine hk hl hclosed

theorem readable_method {object : Expr} (member : String) {args : List Expr}
    (h : Readable object) (hb : object.isBinary = false) (hu : object.isUnary = false)
    (hargs : ∀ a ∈ args, Readable a) : Readable (.method object member args) := by
  intro fuel power i j hle _ hs _
  rw [Expr.words, Expr.wordsOfEach_eq_map] at hs
  obtain ⟨k, hspans, hs⟩ := spans_append.mp hs
  obtain ⟨l, hk, hs⟩ := spans_symbol.mp hs
  obtain ⟨m, hl, hs⟩ := spans_name.mp hs
  have hlek := hspans.rest_le
  have hlt := hk.rest_lt
  have hlt' := hl.rest_lt
  have hspine : Spine fuel power object i k :=
    h fuel power i k hle (Expr.fits_of_not_isBinary hb power) hspans (closed_of_dot hk.next? hb hu)
  have hbuilds : (arguments (named .expression (Bare.operand fuel 0))).Builds (.exprs args) m j :=
    builds_arguments hargs (by omega) hs
  exact spine_method hspine hk hl hs.rest_le hbuilds

theorem readable_binary {op : BinOp} {left right : Expr} (hl : Readable left)
    (hr : Readable right) (hbl : left.bindsAt op.rank) (hbr : right.bindsAt (op.rank + 1)) :
    Readable (.binary op left right) := by
  intro fuel power i j hle hf hs hclosed
  have hpower : power ≤ 2 * op.rank := op.level_eq_rank ▸ hf
  obtain ⟨k, hspans, hs⟩ := spans_append.mp hs
  obtain ⟨l, hk, hs⟩ := spans_symbol.mp hs
  have hlek := hspans.rest_le
  have hlt := hk.rest_lt
  -- the left side is the row so far, the right side an operand of its own
  have hspine : Spine fuel power left i k :=
    hl fuel power i k hle (Expr.fits_of_bindsAt hbl hpower) hspans
      (closed_of_operator hk.next? hbl)
  have hbuilds : (Bare.operand fuel (2 * op.level + 1)).Builds (.expr right) l j :=
    hr.builds (by omega)
      (Expr.fits_of_bindsAt hbr (by rw [op.level_eq_rank]; omega)) hs hclosed
  exact spine_binary hspine hf hk hs.rest_le hbuilds

theorem readable_unary (op : UnOp) {inner : Expr} (h : Readable inner)
    (hb : inner.isBinary = false) : Readable (.unary op inner) := by
  intro fuel power i j hle _ hs hclosed
  obtain ⟨k, hi, hs⟩ := spans_symbol.mp hs
  have hlt := hi.rest_lt
  have hbuilds : (Bare.operand fuel unaryPower).Builds (.expr inner) k j :=
    h.builds (by omega) (Expr.fits_of_not_isBinary hb unaryPower) hs hclosed
  refine Spine.of_start ?_
  cases op with
  | not => exact (builds_unary hi hbuilds).choice [] (by simp)
  | neg =>
    refine (builds_unary hi hbuilds).choice [_] fun q hq => ?_
    obtain rfl := List.mem_singleton.mp hq
    exact refuses_unary (hi.next_ne (by simp [UnOp.symbol]))

theorem readable_paren {inner : Expr} (h : Readable inner) : Readable (.paren inner) := by
  intro fuel power i j hle _ hs _
  obtain ⟨k, l, hi, hinner, hl⟩ := spans_inParens.mp hs
  have hlt := hi.rest_lt
  have hbuilds : (Bare.operand fuel 0).Builds (.expr inner) k l :=
    h.builds (by omega) inner.fits_zero hinner (stops_of_next hl.next? rfl 0)
  exact spine_atom (builds_paren hi (hbuilds.named _) hl) (hi.next_ne (by simp))
    (hi.next_ne (by simp))

/-! ## Every grouped expression -/

/-- Grouped expressions are read as they are, the inside before the outside. -/
theorem readable (e : Expr) (hg : e.grouped) : Readable e := by
  induction e with
  | int value =>
    exact readable_literal (t := .int value) (.int value)
      (fun i j hs => by simpa [Expr.words] using hs)
      (fun i j b hi => reads_select.mpr ⟨⟨_, hi, rfl⟩, rfl⟩) rfl rfl (by simp) (by simp)
  | float value =>
    exact readable_literal (t := .float value) (.float value)
      (fun i j hs => by simpa [Expr.words] using hs)
      (fun i j b hi => reads_select.mpr ⟨⟨_, hi, rfl⟩, rfl⟩) rfl rfl (by simp) (by simp)
  | string value => exact readable_string value
  | null =>
    exact readable_literal (t := .keyword .null) .null
      (fun i j hs => by simpa [Expr.words] using hs)
      (fun i j b hi => reads_select.mpr ⟨⟨_, hi, rfl⟩, rfl⟩) rfl rfl (by simp) (by simp)
  | this =>
    exact readable_literal (t := .keyword .this) .this
      (fun i j hs => by simpa [Expr.words] using hs)
      (fun i j b hi => reads_select.mpr ⟨⟨_, hi, rfl⟩, rfl⟩) rfl rfl (by simp) (by simp)
  | name n => exact readable_name n
  | call n args ih =>
    simp only [Expr.grouped, Expr.groupedAll_eq_all, List.all_eq_true] at hg
    exact readable_call n fun a ha => ih a ha (hg a ha)
  | new className args ih =>
    simp only [Expr.grouped, Expr.groupedAll_eq_all, List.all_eq_true] at hg
    exact readable_new className fun a ha => ih a ha (hg a ha)
  | field object member ih =>
    simp only [Expr.grouped, Bool.and_eq_true, Bool.not_eq_true'] at hg
    obtain ⟨⟨hobject, hb⟩, hu⟩ := hg
    exact readable_field member (ih hobject) hb hu
  | method object member args ih iha =>
    simp only [Expr.grouped, Bool.and_eq_true, Bool.not_eq_true', Expr.groupedAll_eq_all,
      List.all_eq_true] at hg
    obtain ⟨⟨⟨hobject, hb⟩, hu⟩, hargs⟩ := hg
    exact readable_method member (ih hobject) hb hu fun a ha => iha a ha (hargs a ha)
  | binary op left right ihl ihr =>
    simp only [Expr.grouped, Bool.and_eq_true] at hg
    obtain ⟨⟨⟨hleft, hbl⟩, hright⟩, hbr⟩ := hg
    exact readable_binary (ihl hleft) (ihr hright) hbl hbr
  | unary op operand ih =>
    simp only [Expr.grouped, Bool.and_eq_true, Bool.not_eq_true'] at hg
    exact readable_unary op (ih hg.1) hg.2
  | paren inner ih => exact readable_paren (ih hg)

end Expr

theorem builds_operand (hg : e.grouped) (hlt : i.rest.length < fuel) (hf : e.fits power)
    (hs : Spans i e.words j) (stop : Stops power j) :
    (Expr.Bare.operand fuel power).Builds (.expr e) i j :=
  (Expr.readable e hg).builds hlt hf hs stop

/-- A grouped expression is read up to a symbol that ends it. -/
theorem builds_expression (hg : e.grouped) (hs : Spans i e.words j) (stop : Stops 0 j) :
    expression.Builds (.expr e) i j := by
  intro b hb
  obtain ⟨o, c, hr, hrest⟩ :=
    builds_operand hg (Nat.lt_succ_self i.rest.length) e.fits_zero hs stop b hb
  exact ⟨o, c, reads_expression.mpr hr, hrest⟩

end Grammar

end FlatScope
