import FlatScope.Proofs.Composition
import FlatScope.Proofs.Layout
import FlatScope.Proofs.Parsing

/-!
# Places are exact

What a parser takes and what it makes fit together. `b.Lies slots i j`: in the tree under
construction the tokens from place `i` up to place `j` say these slots, every child on its own
stretch of them. `p.Lays f`: the tokens that `p` takes say the slots that `f` tells of its result.
It is shown for every parser of the grammar, so every node of a parsed source is placed on its text
(`parse_located`).
-/

namespace FlatScope.Grammar

open FlatScope.Grammar.Parser

open Slot (child listed)

/-- `i` is a place in this token list. -/
def Input.In (i : Input) (ts : List Token) : Prop := i.pos ≤ ts.length ∧ i = place ts i.pos

theorem Input.In.takes {i j : Input} {ts : List Token} {t : Token} (hi : i.In ts)
    (ht : i.Takes t j) : ts[i.pos]? = some t ∧ j.pos = i.pos + 1 ∧ j.In ts := by
  rw [hi.2, takes_place] at ht
  obtain ⟨hget, rfl⟩ := ht
  obtain ⟨hlt, -⟩ := List.getElem?_eq_some_iff.mp hget
  exact ⟨hget, rfl, hlt, rfl⟩

namespace Builder

/-- The source that a tree is made of. -/
def lexed (b : Builder) : Lexed := ⟨b.ast.source, b.length, b.lexemes.toList⟩

def tokens (b : Builder) : List Token := b.lexed.lexemes.map (·.token)

/-- Node `id` stands where it should, with at least one token. -/
def Holds (b : Builder) (id : NodeId) (i j : Nat) : Prop := b.ast.Occupies b.lexed id i j ∧ i < j

/-- The tokens from place `i` up to place `j` say these slots. -/
def Lies (b : Builder) (slots : List Slot) (i j : Input) : Prop :=
  i.In b.tokens → j.In b.tokens ∧ Fills b.lexed b.Holds slots i.pos j.pos

variable {b c d : Builder} {i j k : Input} {slots slots' : List Slot} {id : NodeId}

theorem Grows.lexed_eq (h : b.Grows c) : c.lexed = b.lexed := by
  simp only [lexed, h.source, h.length, h.lexemes]

theorem Grows.tokens_eq (h : b.Grows c) : c.tokens = b.tokens := by
  rw [tokens, h.lexed_eq, tokens]

namespace Lies

theorem mono (h : b.Lies slots i j) (hg : b.Grows c) : c.Lies slots i j := by
  intro hi
  rw [hg.tokens_eq] at hi
  obtain ⟨hj, hf⟩ := h hi
  rw [hg.tokens_eq, hg.lexed_eq]
  refine ⟨hj, hf.mono fun id i j hid => ⟨?_, hid.2⟩⟩
  rw [hg.lexed_eq]
  exact hid.1.mono hg.keeps

theorem nil (i : Input) : b.Lies [] i i := fun hi => ⟨hi, .nil i.pos⟩

theorem append (h : b.Lies slots i j) (h' : b.Lies slots' j k) : b.Lies (slots ++ slots') i k := by
  intro hi
  obtain ⟨hj, hf⟩ := h hi
  obtain ⟨hk, hf'⟩ := h' hj
  exact ⟨hk, hf.append hf'⟩

theorem cons {s : Slot} (h : b.Lies [s] i j) (h' : b.Lies slots j k) : b.Lies (s :: slots) i k :=
  h.append h'

end Lies

theorem lies_word {t : Token} {w : Word} (ht : i.Takes t j) (hw : t.word? = some w) :
    b.Lies [.word w] i j := by
  intro hi
  obtain ⟨hget, hpos, hj⟩ := hi.takes ht
  rw [tokens, List.getElem?_map] at hget
  obtain ⟨l, hl, rfl⟩ := Option.map_eq_some_iff.mp hget
  refine ⟨hj, .word hl hw ?_⟩
  rw [hpos]
  exact .nil _

theorem lies_symbol {s : Symbol} (ht : i.Takes (.symbol s) j) : b.Lies [Slot.symbol s] i j :=
  lies_word ht rfl

theorem lies_keyword {w : Keyword} (ht : i.Takes (.keyword w) j) : b.Lies [Slot.keyword w] i j :=
  lies_word ht rfl

theorem lies_name {name : String} (ht : i.Takes (.identifier name) j) :
    b.Lies [Slot.named name] i j := lies_word ht rfl

theorem fills_of_holds {i j : Nat} (h : Fills b.lexed b.Holds slots i j) :
    Fills b.lexed (b.ast.Occupies b.lexed) slots i j := h.mono fun _ _ _ h => h.1

theorem lt_of_holds {i j : Nat} (h : Fills b.lexed b.Holds slots i j) (ne : slots ≠ []) : i < j :=
  h.lt (fun _ _ _ h => h.2) ne

/-! ## Making a node -/

section

variable {n : Node} {l : Lexeme} {i j : Nat}

theorem getElem?_lexemes (b : Builder) (i : Nat) : b.lexemes[i]? = b.lexed.lexemes[i]? :=
  Array.getElem?_toList.symm

theorem startOf_of_getElem? (h : b.lexed.lexemes[i]? = some l) : b.startOf i = l.start := by
  rw [startOf, getElem?_lexemes, h]

theorem stopBefore_of_getElem? (h : b.lexed.lexemes[i]? = some l) :
    b.stopBefore (i + 1) = l.stop := by
  rw [stopBefore, getElem?_lexemes, h]

/-- The place that a node is made with covers its tokens. -/
theorem covers_tokens (hlt : i < j) (hj : j ≤ b.lexed.lexemes.length)
    (hloc : n.loc = ⟨b.ast.source, b.startOf i, b.stopBefore j⟩) : Covers b.lexed n i j := by
  obtain ⟨k, rfl⟩ : ∃ k, j = i + k + 1 := ⟨j - i - 1, by omega⟩
  have hfirst := List.getElem?_eq_getElem (show i < b.lexed.lexemes.length by omega)
  have hlast := List.getElem?_eq_getElem (show i + k < b.lexed.lexemes.length by omega)
  refine .tokens hfirst hlast ?_
  rw [hloc, startOf_of_getElem? hfirst, stopBefore_of_getElem? hlast]
  rfl

/-- Between the braces of an empty class body the place is turned around. -/
theorem covers_noMembers (hkind : n.kind = .definitions [])
    (ho : b.tokens[i]? = some (.symbol .leftCurly))
    (hc : b.tokens[i + 1]? = some (.symbol .rightCurly))
    (hloc : n.loc = ⟨b.ast.source, b.startOf (i + 1), b.stopBefore (i + 1)⟩) :
    Covers b.lexed n (i + 1) (i + 1) := by
  rw [tokens, List.getElem?_map] at ho hc
  obtain ⟨opening, ho, hopening⟩ := Option.map_eq_some_iff.mp ho
  obtain ⟨closing, hc, hclosing⟩ := Option.map_eq_some_iff.mp hc
  refine .noMembers hkind ho hopening hc hclosing ?_
  rw [hloc, startOf_of_getElem? hc, stopBefore_of_getElem? ho]
  rfl

/-- Where there are no tokens, both ends of the unit are that of the source. -/
theorem covers_noClasses (hkind : n.kind = .compUnit []) (hnil : b.lexed.lexemes = [])
    (hloc : n.loc = ⟨b.ast.source, b.startOf 0, b.stopBefore 0⟩) : Covers b.lexed n 0 0 := by
  refine .noClasses hkind hnil ?_
  rw [hloc, startOf, stopBefore, getElem?_lexemes, hnil]
  rfl

end

/-- A new node stands where its text stands. -/
theorem occupies_add {kind : NodeKind} {i j first next : Nat}
    (hadd : c.add kind first next = (id, d))
    (hc : Covers c.lexed ⟨id, kind, ⟨c.ast.source, c.startOf first, c.stopBefore next⟩⟩ i j)
    (hf : Fills c.lexed (c.ast.Occupies c.lexed) kind.layout i j) :
    d.ast.Occupies d.lexed id i j := by
  have hg := Grows.add c kind first next
  rw [hadd] at hg
  have hn : d.ast.get? id =
      some ⟨id, kind, ⟨c.ast.source, c.startOf first, c.stopBefore next⟩⟩ := by
    cases hadd
    exact (Ast.get?_add ..).trans (if_pos rfl)
  rw [hg.lexed_eq]
  exact .node hn hc (hf.mono fun _ _ _ h => h.mono hg.keeps)

/-- A new node with a text of its own, told by the text of its parts. -/
theorem lies_add {kind : NodeKind} (hadd : c.add kind i.pos j.pos = (id, d))
    (h : i.In c.tokens → j.In c.tokens ∧ i.pos < j.pos ∧
      Fills c.lexed (c.ast.Occupies c.lexed) kind.layout i.pos j.pos) :
    d.Lies [child id] i j := by
  have hg := Grows.add c kind i.pos j.pos
  rw [hadd] at hg
  intro hi
  rw [hg.tokens_eq] at hi ⊢
  obtain ⟨hj, hlt, hf⟩ := h hi
  have hle : j.pos ≤ c.lexed.lexemes.length := by
    rw [← List.length_map (·.token)]
    exact hj.1
  have ho := occupies_add hadd (covers_tokens hlt hle rfl) hf
  exact ⟨hj, .child ⟨ho, hlt⟩ (.nil _)⟩

theorem lies_made {kind : NodeKind} (hadd : c.add kind i.pos j.pos = (id, d))
    (h : c.Lies kind.layout i j) (ne : kind.layout ≠ []) : d.Lies [child id] i j := by
  refine lies_add hadd fun hi => ?_
  obtain ⟨hj, hf⟩ := h hi
  exact ⟨hj, lt_of_holds hf ne, fills_of_holds hf⟩

theorem lies_node {kind : NodeKind} (hnode : (node i.pos kind).Reads j c id k d)
    (h : c.Lies kind.layout i j) (ne : kind.layout ≠ []) : d.Lies [child id] i k := by
  obtain ⟨hadd, rfl⟩ := reads_build.mp hnode
  exact lies_made hadd h ne

/-- A type stands where its name was read, even if it is made later. -/
theorem lies_typeNode {ty : Ty} {l : Input} (hty : Spans i [ty.word] j)
    (h : (typeNode ty i.pos).Reads k b id l c) : c.Lies [child id] i j := by
  obtain ⟨t, j', ht, hw, hnil⟩ := spans_cons.mp hty
  obtain rfl := spans_nil.mp hnil
  have hword : ∀ d : Builder, d.Lies [.word ty.word] i j' := fun d => lies_word ht hw
  cases ty with
  | named name =>
    obtain ⟨o, _, d, hname, h⟩ := reads_bind.mp h
    obtain ⟨hadd, -⟩ := reads_build.mp hname
    obtain ⟨hadd', -⟩ := reads_build.mp h
    rw [← ht.2] at hadd hadd'
    have ho := lies_made hadd (hword b) (List.cons_ne_nil _ _)
    exact lies_made hadd' ho (List.cons_ne_nil _ _)
  | int | float | string | void =>
    obtain ⟨hadd, -⟩ := reads_build.mp h
    rw [← ht.2] at hadd
    exact lies_made hadd (hword b) (List.cons_ne_nil _ _)

end Builder

open Builder

/-! ## Combinators -/

namespace Parser

variable {α : Type} {p : Parser Builder α} {f : α → List Slot}

/-- What `p` takes says the slots of what it reads. -/
def Lays (p : Parser Builder α) (f : α → List Slot) : Prop :=
  ∀ (i : Input) (b : Builder) (a : α) (j : Input) (c : Builder), p.Reads i b a j c →
    c.Lies (f a) i j

namespace Lays

variable {i j : Input} {b c : Builder} {a : α}

theorem lies (hp : p.Lays f) (h : p.Reads i b a j c) : c.Lies (f a) i j := hp i b a j c h

theorem many [p.Composed] (hp : p.Lays f) : (many p).Lays (·.flatMap f) := by
  intro i b as j c h
  have key : b.Grows c ∧ c.Lies (as.flatMap f) i j := by
    refine h.many_induct (R := fun i b as j c => b.Grows c ∧ c.Lies (as.flatMap f) i j) ?_ ?_
    · rintro i b c (rfl | hf)
      · exact ⟨.refl b, .nil i⟩
      · exact ⟨hf.grows, .nil i⟩
    · rintro i b a j c as k d ha ⟨hg, has⟩
      exact ⟨ha.grows.trans hg, ((hp.lies ha).mono hg).append has⟩
  exact key.2

theorem children {p : TreeParser NodeId} [p.Composed] (hp : p.Lays ([child ·])) :
    (Parser.many p).Lays (·.map child) := by
  intro i b as j c h
  show c.Lies (as.map child) i j
  rw [List.map_eq_flatMap]
  exact hp.many.lies h

theorem separatedBy {p : TreeParser NodeId} [p.Composed] (hp : p.Lays ([child ·])) :
    (separatedBy p (symbol .comma)).Lays listed := by
  intro i b as j c h
  rcases reads_separatedBy.mp h with ⟨rfl, -, rfl⟩ | ⟨a, k, d, bs, rfl, ha, hbs⟩
  · exact .nil i
  · have hrest : (do symbol .comma; p : TreeParser NodeId).Lays
        fun id => [Slot.symbol .comma, child id] := by
      intro i b id j c hr
      obtain ⟨_, l, _, hl, hr⟩ := reads_bind.mp hr
      exact (lies_symbol (reads_symbol.mp hl).1).cons (hp.lies hr)
    exact ((hp.lies ha).mono hbs.grows).cons (hrest.many.lies hbs)

theorem between {opening closing : Symbol} (hp : p.Lays f) :
    (between opening p closing).Lays fun a =>
      Slot.symbol opening :: f a ++ [Slot.symbol closing] := by
  intro i b a l c h
  obtain ⟨j, k, hj, ha, hl⟩ := reads_between.mp h
  exact ((lies_symbol hj).cons (hp.lies ha)).append (lies_symbol hl)

theorem optional {p : TreeParser NodeId} (hp : p.Lays ([child ·])) :
    (optional p).Lays (·.toList.map child) := by
  intro i b o j c h
  rcases reads_optional.mp h with ⟨a, rfl, ha⟩ | ⟨rfl, -, rfl⟩
  · exact hp.lies ha
  · exact .nil i

end Lays

/-- The same of a parser that reads what a node is and leaves making it to `node`. -/
def Shapes (q : TreeParser NodeKind) : Prop :=
  ∀ (i : Input) (b : Builder) (kind : NodeKind) (j : Input) (c : Builder), q.Reads i b kind j c →
    kind.layout ≠ [] ∧ c.Lies kind.layout i j

/-- One of several kinds of nodes, and then the node. -/
theorem lays_choice {qs : List (TreeParser NodeKind)} (h : ∀ q ∈ qs, q.Shapes) :
    (do
      let first ← position
      let kind ← choice qs
      node first kind : TreeParser NodeId).Lays ([child ·]) := by
  intro i b id l d hr
  simp only [reads_bind, reads_position] at hr
  obtain ⟨_, _, _, ⟨rfl, rfl, rfl⟩, kind, j, c, hkind, hnode⟩ := hr
  obtain ⟨q, hq, u, hr⟩ := hkind.of_choice
  obtain ⟨ne, hl⟩ := h q hq _ _ _ _ _ hr
  exact lies_node hnode hl ne

end Parser

variable {i j k l : Input} {b c d : Builder} {id : NodeId}

/-! ## Expressions -/

namespace Expr

variable {expr : TreeParser NodeId} {operand : Nat → TreeParser NodeId}

theorem arguments_lays [expr.Composed] (hE : expr.Lays ([child ·])) :
    (arguments expr).Lays ([child ·]) := by
  intro i b id l d h
  simp only [arguments, reads_named, reads_bind, reads_position] at h
  obtain ⟨_, _, _, ⟨rfl, rfl, rfl⟩, items, k, c, hargs, hnode⟩ := h
  exact lies_node hnode (hE.separatedBy.between.lies hargs) (List.cons_ne_nil _ _)

theorem literal_shapes : literal.Shapes := by
  intro i b kind j c h
  obtain ⟨⟨t, ht, hf⟩, -⟩ := reads_select.mp h
  split at hf <;> cases hf <;> exact ⟨List.cons_ne_nil _ _, lies_word ht rfl⟩

theorem stringLiteral_shapes : stringLiteral.Shapes := by
  intro i b kind j c h
  simp only [stringLiteral, reads_decoded, Option.map_eq_some_iff] at h
  obtain ⟨⟨raw, ht, value, hv, rfl⟩, -⟩ := h
  exact ⟨List.cons_ne_nil _ _, lies_word ht (by simp [hv])⟩

theorem creation_shapes [expr.Composed] (hE : expr.Lays ([child ·])) : (creation expr).Shapes := by
  intro i b kind l d h
  simp only [creation, reads_bind, reads_keyword, reads_identifier, reads_pure] at h
  obtain ⟨_, j, _, ⟨hj, rfl⟩, name, k, _, ⟨hk, rfl⟩, args, _, c, hargs, rfl, rfl, rfl⟩ := h
  refine ⟨List.cons_ne_nil _ _, (lies_keyword hj).cons ?_⟩
  exact (lies_name hk).cons ((arguments_lays hE).lies hargs)

theorem nameOrCall_shapes [expr.Composed] (hE : expr.Lays ([child ·])) :
    (nameOrCall expr).Shapes := by
  intro i b kind l d h
  simp only [nameOrCall, reads_bind, reads_identifier, reads_pure] at h
  obtain ⟨name, j, _, ⟨hj, rfl⟩, args, _, c, hargs, rfl, rfl, rfl⟩ := h
  exact ⟨List.cons_ne_nil _ _, (lies_name hj).cons ((arguments_lays hE).optional.lies hargs)⟩

theorem parenthesized_shapes (hE : expr.Lays ([child ·])) : (parenthesized expr).Shapes := by
  intro i b kind l d h
  obtain ⟨inner, hinner, rfl⟩ := reads_map.mp h
  exact ⟨List.cons_ne_nil _ _, hE.between.lies hinner⟩

theorem atom_lays [expr.Composed] (hE : expr.Lays ([child ·])) :
    (Bare.atom expr).Lays ([child ·]) := by
  refine lays_choice fun q hq => ?_
  simp only [List.mem_cons, List.not_mem_nil, or_false] at hq
  rcases hq with rfl | rfl | rfl | rfl | rfl
  · exact literal_shapes
  · exact stringLiteral_shapes
  · exact creation_shapes hE
  · exact nameOrCall_shapes hE
  · exact parenthesized_shapes hE

theorem unary_lays (hO : ∀ n, (operand n).Lays ([child ·])) (op : UnOp) :
    (Bare.unary operand op).Lays ([child ·]) := by
  intro i b id l d h
  simp only [Bare.unary, reads_bind, reads_position, reads_symbol] at h
  obtain ⟨_, _, _, ⟨rfl, rfl, rfl⟩, _, j, _, ⟨hj, rfl⟩, inner, k, c, hinner, hnode⟩ := h
  exact lies_node hnode ((lies_symbol hj).cons ((hO _).lies hinner)) (List.cons_ne_nil _ _)

/-- An access goes back to where its object begins. -/
theorem lies_access [expr.Composed] (hE : expr.Lays ([child ·])) {object : NodeId}
    (hobject : b.Lies [child object] i j) (h : (Bare.access expr i.pos object).Reads j b id l d) :
    d.Lies [child id] i l := by
  simp only [Bare.access, reads_bind, reads_symbol, reads_identifier] at h
  obtain ⟨_, k, _, ⟨hk, rfl⟩, member, k', _, ⟨hk', rfl⟩, args, l', c, hargs, hnode⟩ := h
  have hrest : c.Lies (Slot.named member :: args.toList.map child) k l' :=
    (lies_name hk').cons ((arguments_lays hE).optional.lies hargs)
  have hall := (hobject.mono hargs.grows).cons ((lies_symbol hk).cons hrest)
  exact lies_node hnode hall (List.cons_ne_nil _ _)

theorem lies_binary [∀ n, (operand n).Composed] (hO : ∀ n, (operand n).Lays ([child ·]))
    {left : NodeId} {op : BinOp} (hleft : b.Lies [child left] i j)
    (h : (Bare.binary operand i.pos left op).Reads j b id l d) : d.Lies [child id] i l := by
  simp only [Bare.binary, reads_bind, reads_symbol] at h
  obtain ⟨_, k, _, ⟨hk, rfl⟩, right, l', c, hright, hnode⟩ := h
  have hall := (hleft.mono hright.grows).cons ((lies_symbol hk).cons ((hO _).lies hright))
  exact lies_node hnode hall (List.cons_ne_nil _ _)

theorem operandWith_lays [∀ n, (operand n).Composed] (hO : ∀ n, (operand n).Lays ([child ·]))
    (power : Nat) : (Bare.operandWith operand power).Lays ([child ·]) := by
  intro i b id l d h
  have hE : (named .expression (operand 0)).Lays ([child ·]) := hO 0
  simp only [Bare.operandWith, reads_bind, reads_position] at h
  obtain ⟨_, _, _, ⟨rfl, rfl, rfl⟩, start, j, c, hstart, hext⟩ := h
  have first : c.Lies [child start] i j := by
    obtain ⟨p, hp, u, hr⟩ := hstart.of_choice
    simp only [List.mem_cons, List.not_mem_nil, or_false] at hp
    rcases hp with rfl | rfl | rfl
    · exact (unary_lays hO .not).lies hr
    · exact (unary_lays hO .neg).lies hr
    · exact (atom_lays hE).lies hr
  -- every extension is the node over all that is read so far
  refine hext.extend_induct (P := fun left k u => u.Lies [child left] i k) ?_ ?_ first
  · intro left k u left' l v hleft hstep
    obtain ⟨p, hp, w, hw, hr⟩ := hstep.exists_of_choice (composed_extensions _ _ _)
    have hleft := hleft.mono hw
    rcases List.mem_cons.mp hp with rfl | hp
    · exact lies_access hE hleft hr
    · obtain ⟨op, -, rfl⟩ := List.mem_map.mp hp
      exact lies_binary hO hleft hr
  · exact fun left k u v hleft hstep => hleft.mono hstep.grows

theorem operand_lays (fuel power : Nat) : (Bare.operand fuel power).Lays ([child ·]) := by
  induction fuel generalizing power with
  | zero => exact fun _ _ _ _ _ h => absurd h not_reads_fail
  | succ fuel ih => exact operandWith_lays ih power

end Expr

theorem expression_lays : expression.Lays ([child ·]) :=
  fun i b id j c h => Expr.operand_lays _ 0 i b id j c (reads_expression.mp h)

/-! ## Statements -/

namespace Stmt

variable {stmt : TreeParser NodeId}

theorem condition_lays :
    condition.Lays fun id => [Slot.symbol .leftParen, child id, Slot.symbol .rightParen] :=
  expression_lays.between

theorem block_shapes [stmt.Composed] (hS : stmt.Lays ([child ·])) : (block stmt).Shapes := by
  intro i b kind l d h
  simp only [block, reads_named, reads_bind, reads_position, reads_pure] at h
  obtain ⟨_, _, _, ⟨rfl, rfl, rfl⟩, items, k, c, hbody, stmts, _, _, hnode, rfl, rfl, rfl⟩ := h
  refine ⟨List.cons_ne_nil _ _, ?_⟩
  exact lies_node hnode (hS.children.between.lies hbody) (List.cons_ne_nil _ _)

theorem declaration_shapes : declaration.Shapes := by
  intro i b kind l d h
  simp only [declaration_eq, reads_named, reads_bind, reads_position, reads_identifier,
    reads_symbol, reads_pure] at h
  obtain ⟨_, _, _, ⟨rfl, rfl, rfl⟩, ty, j, _, hty, name, k, _, ⟨hk, -⟩, _, l', _, ⟨hl, -⟩, id, _,
    _, hnode, rfl, rfl, rfl⟩ := h
  rw [← eq_of_reads_typeNode hnode]
  refine ⟨List.cons_ne_nil _ _, (lies_typeNode (spans_of_typeName hty) hnode).cons ?_⟩
  exact (lies_name hk).cons (lies_symbol hl)

theorem conditional_shapes [stmt.Composed] (hS : stmt.Lays ([child ·])) :
    (conditional stmt).Shapes := by
  intro i b kind m d h
  simp only [conditional, reads_named, reads_bind, reads_keyword] at h
  obtain ⟨_, j, _, ⟨hj, rfl⟩, cond, k, c, hcond, body, l, u, hbody, o, m', v, ho, hm⟩ := h
  have hhead : v.Lies (Slot.keyword .if_ ::
      [Slot.symbol .leftParen, child cond, Slot.symbol .rightParen] ++ [child body]) i l := by
    refine Lies.append ((lies_keyword hj).cons ?_) ((hS.lies hbody).mono ho.grows)
    exact (condition_lays.lies hcond).mono (hbody.grows.trans ho.grows)
  rcases reads_optional.mp ho with ⟨other, rfl, hsome⟩ | ⟨rfl, -, rfl⟩
  · simp only [reads_bind, reads_keyword] at hsome
    obtain ⟨_, l', _, ⟨hl, rfl⟩, hother⟩ := hsome
    obtain ⟨rfl, rfl, rfl⟩ := reads_pure.mp hm
    exact ⟨List.cons_ne_nil _ _, hhead.append ((lies_keyword hl).cons (hS.lies hother))⟩
  · obtain ⟨rfl, rfl, rfl⟩ := reads_pure.mp hm
    exact ⟨List.cons_ne_nil _ _, hhead⟩

theorem loop_shapes [stmt.Composed] (hS : stmt.Lays ([child ·])) : (loop stmt).Shapes := by
  intro i b kind l d h
  simp only [loop, reads_named, reads_bind, reads_keyword, reads_pure] at h
  obtain ⟨_, j, _, ⟨hj, rfl⟩, cond, k, c, hcond, body, l', u, hbody, rfl, rfl, rfl⟩ := h
  have hcond := (condition_lays.lies hcond).mono hbody.grows
  exact ⟨List.cons_ne_nil _ _, (lies_keyword hj).cons (hcond.append (hS.lies hbody))⟩

theorem returning_shapes : returning.Shapes := by
  intro i b kind l d h
  simp only [returning, reads_named, reads_bind, reads_keyword, reads_symbol, reads_pure] at h
  obtain ⟨_, j, _, ⟨hj, rfl⟩, o, k, c, ho, _, l', _, ⟨hl, rfl⟩, rfl, rfl, rfl⟩ := h
  have hhead : c.Lies (Slot.keyword .return_ :: o.toList.map child) i k :=
    (lies_keyword hj).cons (expression_lays.optional.lies ho)
  exact ⟨List.cons_ne_nil _ _, hhead.append (lies_symbol hl)⟩

/-- Both jumps are a keyword and a semicolon. -/
theorem jump_shapes {w : Keyword} {jump : NodeKind}
    (hj : jump.layout = [Slot.keyword w, Slot.symbol .semicolon]) :
    (do Parser.keyword w; Parser.symbol .semicolon; return jump : TreeParser NodeKind).Shapes := by
  intro i b kind l d h
  simp only [reads_bind, reads_keyword, reads_symbol, reads_pure] at h
  obtain ⟨_, j, _, ⟨hj', -⟩, _, l', _, ⟨hl, -⟩, rfl, rfl, -⟩ := h
  rw [hj]
  exact ⟨List.cons_ne_nil _ _, (lies_keyword hj').cons (lies_symbol hl)⟩

theorem printing_shapes : printing.Shapes := by
  intro i b kind l d h
  simp only [printing, reads_named, reads_bind, reads_keyword, reads_symbol, reads_pure] at h
  obtain ⟨_, j, _, ⟨hj, rfl⟩, value, k, c, hvalue, _, l', _, ⟨hl, rfl⟩, rfl, rfl, rfl⟩ := h
  refine ⟨List.cons_ne_nil _ _, (lies_keyword hj).cons ?_⟩
  exact (condition_lays.lies hvalue).append (lies_symbol hl)

theorem evaluation_shapes : evaluation.Shapes := by
  intro i b kind l d h
  simp only [evaluation, reads_bind, reads_symbol] at h
  obtain ⟨target, j, c, htarget, o, k, u, ho, _, l', _, ⟨hl, rfl⟩, hs⟩ := h
  have htarget := (expression_lays.lies htarget).mono ho.grows
  rcases reads_optional.mp ho with ⟨value, rfl, hsome⟩ | ⟨rfl, -, rfl⟩
  · simp only [reads_bind, reads_symbol] at hsome
    obtain ⟨_, j', _, ⟨hj, rfl⟩, hvalue⟩ := hsome
    obtain ⟨rfl, rfl, rfl⟩ := reads_pure.mp hs
    have hend := (expression_lays.lies hvalue).cons (lies_symbol hl)
    exact ⟨List.cons_ne_nil _ _, htarget.cons ((lies_symbol hj).cons hend)⟩
  · obtain ⟨rfl, rfl, rfl⟩ := reads_pure.mp hs
    exact ⟨List.cons_ne_nil _ _, htarget.cons (lies_symbol hl)⟩

theorem statementWith_lays [stmt.Composed] (hS : stmt.Lays ([child ·])) :
    (statementWith stmt).Lays ([child ·]) := by
  refine lays_choice fun q hq => ?_
  simp only [List.mem_cons, List.not_mem_nil, or_false] at hq
  rcases hq with rfl | rfl | rfl | rfl | rfl | rfl | rfl | rfl | rfl
  · exact block_shapes hS
  · exact declaration_shapes
  · exact conditional_shapes hS
  · exact loop_shapes hS
  · exact returning_shapes
  · exact jump_shapes rfl
  · exact jump_shapes rfl
  · exact printing_shapes
  · exact evaluation_shapes

theorem statementWithin_lays (fuel : Nat) : (statementWithin fuel).Lays ([child ·]) := by
  induction fuel with
  | zero => exact fun _ _ _ _ _ h => absurd h not_reads_fail
  | succ fuel ih => exact statementWith_lays ih

end Stmt

theorem statement_lays : statement.Lays ([child ·]) :=
  fun i b id j c h => Stmt.statementWithin_lays _ i b id j c (reads_statement.mp h)

/-! ## Classes and programs -/

theorem compound_lays : compound.Lays ([child ·]) := by
  intro i b id m d h
  simp only [compound, reads_named, reads_bind, reads_position, reads_symbol] at h
  obtain ⟨_, _, _, ⟨rfl, rfl, rfl⟩, _, j, _, ⟨hj, rfl⟩, items, k, c, hbody, _, l, _, ⟨hl, rfl⟩,
    stmts, _, _, hstmts, hnode⟩ := h
  have hopen := (lies_symbol hj).cons (statement_lays.children.lies hbody)
  have hstmts := lies_node hstmts (hopen.append (lies_symbol hl)) (List.cons_ne_nil _ _)
  exact lies_node hnode hstmts (List.cons_ne_nil _ _)

theorem parameter_lays : parameter.Lays ([child ·]) := by
  intro i b id l d h
  simp only [parameter_eq, reads_named, reads_bind, reads_position, reads_identifier] at h
  obtain ⟨_, _, _, ⟨rfl, rfl, rfl⟩, ty, j, _, hty, name, k, _, ⟨hk, -⟩, tyId, _, _, htype,
    hnode⟩ := h
  obtain rfl := eq_of_reads_typeNode htype
  have hall := (lies_typeNode (spans_of_typeName hty) htype).cons (lies_name hk)
  exact lies_node hnode hall (List.cons_ne_nil _ _)

theorem parameters_lays : parameters.Lays ([child ·]) := by
  intro i b id l d h
  simp only [parameters, reads_named, reads_bind, reads_position] at h
  obtain ⟨_, _, _, ⟨rfl, rfl, rfl⟩, items, k, c, hps, hnode⟩ := h
  exact lies_node hnode (parameter_lays.separatedBy.between.lies hps) (List.cons_ne_nil _ _)

theorem member_lays : member.Lays ([child ·]) := by
  intro i b id m d h
  simp only [member_eq, reads_named, reads_bind, reads_position, reads_identifier] at h
  obtain ⟨_, _, _, ⟨rfl, rfl, rfl⟩, ty, j, _, hty, name, k, c, ⟨hk, rfl⟩, rest, l, u, hrest, tyId,
    l', v, htype, hnode⟩ := h
  have hhead := (lies_typeNode (spans_of_typeName hty) htype).cons (lies_name hk)
  obtain rfl := eq_of_reads_typeNode htype
  obtain ⟨p, hp, w, hr⟩ := hrest.of_choice
  simp only [List.mem_cons, List.not_mem_nil, or_false] at hp
  rcases hp with rfl | rfl
  · simp only [reads_bind, reads_symbol, reads_pure] at hr
    obtain ⟨_, l', _, ⟨hl, -⟩, rfl, rfl, -⟩ := hr
    exact lies_node hnode (hhead.append (lies_symbol hl)) (List.cons_ne_nil _ _)
  · simp only [reads_bind, reads_pure] at hr
    obtain ⟨params, k', c', hparams, body, l', u', hbody, rfl, rfl, rfl⟩ := hr
    have hparams := (parameters_lays.lies hparams).mono (hbody.grows.trans htype.grows)
    have hbody := (compound_lays.lies hbody).mono htype.grows
    exact lies_node hnode (hhead.append (hparams.cons hbody)) (List.cons_ne_nil _ _)

/-- Members stand one behind the other; if there are none, only the place behind `{` is known. -/
theorem lies_members (h : members.Reads i b id j c) : c.Lies [child id] i j ∨
    i = j ∧ c.ast.get? id =
      some ⟨id, .definitions [], ⟨c.ast.source, c.startOf i.pos, c.stopBefore i.pos⟩⟩ := by
  simp only [members, reads_bind, reads_position] at h
  obtain ⟨_, _, _, ⟨rfl, rfl, rfl⟩, items, k, u, hms, hnode⟩ := h
  cases items with
  | nil =>
    obtain ⟨hadd, rfl⟩ := reads_build.mp hnode
    obtain rfl : i = k := by
      rcases reads_manyWithin_succ.mp hms with ⟨-, -, hik⟩ | ⟨_, _, _, _, hcons, -⟩
      · exact hik
      · cases hcons
    cases hadd
    exact .inr ⟨rfl, (Ast.get?_add ..).trans (if_pos rfl)⟩
  | cons m ms =>
    exact .inl (lies_node hnode (member_lays.children.lies hms) (List.cons_ne_nil _ _))

/-- The definitions of an empty class body stand between its braces, with no token of their own. -/
theorem fills_noMembers {m : Input} (hn : c.ast.get? id =
      some ⟨id, .definitions [], ⟨c.ast.source, c.startOf k.pos, c.stopBefore k.pos⟩⟩)
    (hj : j.In c.tokens) (hk : j.Takes (.symbol .leftCurly) k)
    (hm : k.Takes (.symbol .rightCurly) m) : m.In c.tokens ∧ j.pos < m.pos ∧
      Fills c.lexed (c.ast.Occupies c.lexed)
        [Slot.symbol .leftCurly, child id, Slot.symbol .rightCurly] j.pos m.pos := by
  obtain ⟨hopen, hpos, hin⟩ := hj.takes hk
  obtain ⟨hclose, hpos', hin'⟩ := hin.takes hm
  obtain ⟨-, hf⟩ := lies_symbol (b := c) hk hj
  obtain ⟨-, hf'⟩ := lies_symbol (b := c) hm hin
  rw [hpos] at hn hclose hf hf'
  have hocc : c.ast.Occupies c.lexed id (j.pos + 1) (j.pos + 1) :=
    .node (n := ⟨id, .definitions [], _⟩) hn (covers_noMembers rfl hopen hclose rfl) (.nil _)
  exact ⟨hin', by omega, (fills_of_holds hf).append (.child hocc (fills_of_holds hf'))⟩

theorem classDecl_lays : classDecl.Lays ([child ·]) := by
  intro i b id m d h
  simp only [classDecl, reads_named, reads_bind, reads_position, reads_keyword,
    reads_identifier] at h
  obtain ⟨_, _, _, ⟨rfl, rfl, rfl⟩, _, j, _, ⟨hj, rfl⟩, name, k, _, ⟨hk, rfl⟩, ms, m', c, hbody,
    hnode⟩ := h
  obtain ⟨l, l', hl, hms, hl'⟩ := reads_between.mp hbody
  have hname : c.Lies [Slot.keyword .class_, Slot.named name] i k :=
    (lies_keyword hj).cons (lies_name hk)
  rcases lies_members hms with hms | ⟨rfl, hn⟩
  · have hall := hname.append ((lies_symbol hl).cons (hms.cons (lies_symbol hl')))
    exact lies_node hnode hall (List.cons_ne_nil _ _)
  · obtain ⟨hadd, rfl⟩ := reads_build.mp hnode
    refine lies_add hadd fun hi => ?_
    obtain ⟨hin, hf⟩ := hname hi
    obtain ⟨hin', hlt, hf'⟩ := fills_noMembers hn hin hl hl'
    have hlt' := lt_of_holds hf (List.cons_ne_nil _ _)
    exact ⟨hin', by omega, (fills_of_holds hf).append hf'⟩

/-- A unit stands for all tokens, also if there are none. -/
theorem occupies_unit {ts : List Token} (hts : b.tokens = ts) (h : unit.Reads ⟨0, ts⟩ b id j c) :
    c.ast.Occupies b.lexed id 0 ts.length := by
  simp only [unit, reads_bind, reads_position, reads_endOfInput] at h
  obtain ⟨_, _, _, ⟨rfl, rfl, rfl⟩, items, k, u, hclasses, _, _, _, ⟨hend, rfl, rfl⟩, hnode⟩ := h
  obtain ⟨hadd, rfl⟩ := reads_build.mp hnode
  have hg := hclasses.grows
  have hg' : u.Grows c := hnode.grows
  rw [← hg.tokens_eq] at hts
  subst hts
  rw [← hg.lexed_eq, ← hg'.lexed_eq]
  have hin : (⟨0, u.tokens⟩ : Input).In u.tokens := ⟨Nat.zero_le _, rfl⟩
  obtain ⟨hk, hf⟩ := classDecl_lays.children.lies hclasses hin
  have hlength : u.tokens.length = u.lexed.lexemes.length := List.length_map _
  have hpos : k.pos = u.tokens.length := by
    rw [hk.2] at hend
    exact Nat.le_antisymm hk.1 (List.drop_eq_nil_iff.mp hend)
  rw [← hpos]
  refine occupies_add hadd ?_ (fills_of_holds hf)
  cases items with
  | nil =>
    have hzero : k.pos = 0 := hf.eq_of_nil.symm
    have hnil : u.lexed.lexemes = [] := List.length_eq_zero_iff.mp (by omega)
    rw [hzero]
    exact covers_noClasses rfl hnil rfl
  | cons item items =>
    exact covers_tokens (lt_of_holds hf (List.cons_ne_nil _ _)) (by omega) rfl

end FlatScope.Grammar

namespace FlatScope.Ast

open FlatScope.Grammar

theorem occupies_of_ofLexemes {source length : Nat} {lexemes : List Lexeme} {ast : Ast}
    {root : NodeId} (h : ofLexemes .unit source length lexemes = .ok (ast, root)) :
    ast.Occupies ⟨source, length, lexemes⟩ root 0 lexemes.length := by
  unfold ofLexemes at h
  dsimp only at h
  split at h
  · next root b hr =>
    cases h
    obtain ⟨n, hr⟩ := Parser.run_eq_ok.mp hr
    rw [← List.length_map (·.token)]
    exact occupies_unit (by simp [Builder.tokens, Builder.lexed]) hr
  · cases h

/--
The places of a parsed source are exact. Its top stands for all tokens, and every node below for the
stretch of them that its parent's text leaves to it: from the start of its first token to the end of
its last, and as `Covers` says where it has none. So a child is inside its parent and behind the
children before it.
-/
theorem parse_located {source : Nat} {text : String} {ast : Ast} {root : NodeId}
    (h : parse .unit source text = .ok (ast, root)) :
    ast.Located (.ofText source text) root := by
  have top : ast.Occupies (.ofText source text) root 0 (Lexer.lex text.toList).length :=
    occupies_of_ofLexemes h
  obtain ⟨-, o, -, -, rfl, hadds, -⟩ := exists_of_ofLexemes h
  exact (hadds.shows o List.mem_cons_self).located (fun _ _ => mem_nodes_of_adds_empty hadds)
    (Lexed.ordered_ofText source text) top

theorem parse_located_classes : ∃ ast root,
    parse .unit 3 "class A { } class B { A f(int x) { return -x.y(x) + x; } }" = .ok (ast, root) ∧
      ast.Located (.ofText 3 "class A { } class B { A f(int x) { return -x.y(x) + x; } }")
        root := by
  have hok : (parse .unit 3 "class A { } class B { A f(int x) { return -x.y(x) + x; } }").isOk := by
    decide +kernel
  cases h : parse .unit 3 "class A { } class B { A f(int x) { return -x.y(x) + x; } }" with
  | error e =>
    rw [h] at hok
    cases hok
  | ok r => exact ⟨r.1, r.2, rfl, parse_located h⟩

/-- The definitions between the braces, the class around them and the unit. -/
example : (parse .unit 3 "class A { }").toOption.map
      (fun (ast, _) => (ast.ids.filterMap ast.get?).map (·.loc)) =
    some [⟨3, 10, 9⟩, ⟨3, 0, 11⟩, ⟨3, 0, 11⟩] := by
  decide +kernel

end FlatScope.Ast
