import FlatScope.Proofs.Composition

/-!
# What is read is what stands there

Whatever a parser of the grammar reads, the tokens it took say the words of some tree: `p.Sound
words` for each of them, up to `spells_of_run` for whole token lists. What the parser builds and
which alternatives failed before plays no part.
-/

namespace FlatScope.Grammar

open FlatScope.Grammar.Parser

/-- The tokens taken by `p` say something that `words` can write. -/
def Parser.Sound {σ α ε : Type} (p : Parser σ α) (words : ε → List Word) : Prop :=
  ∀ i s a j t, p.Reads i s a j t → ∃ e, Spans i (words e) j

namespace Parser.Sound

variable {σ α ε : Type} {p : Parser σ α} {words : ε → List Word}

theorem spans {i j : Input} {s t : σ} {a : α} (hp : p.Sound words) (h : p.Reads i s a j t) :
    ∃ e, Spans i (words e) j := hp i s a j t h

theorem many (hp : p.Sound words) :
    (many p).Sound fun es : List ε => (es.map words).flatten := by
  intro i s as j t h
  refine h.many_induct (R := fun i _ _ j _ => ∃ es, Spans i (List.map words es).flatten j) ?_ ?_
  · exact fun i _ _ _ => ⟨[], .nil i⟩
  · rintro i s a k t _ j _ ha ⟨es, hes⟩
    obtain ⟨e, he⟩ := hp.spans ha
    exact ⟨e :: es, he.append hes⟩

theorem separatedBy (hp : p.Sound words) :
    (separatedBy p (symbol .comma)).Sound fun es : List ε => separated (es.map words) := by
  intro i s as j t h
  rcases reads_separatedBy.mp h with ⟨-, -, rfl⟩ | ⟨a, k, u, bs, -, ha, hbs⟩
  · exact ⟨[], .nil i⟩
  · have hrest : (do symbol .comma; p : Parser σ α).Sound fun e => .symbol .comma :: words e := by
      intro i s b j t hb
      obtain ⟨_, l, _, hl, hb⟩ := reads_bind.mp hb
      obtain ⟨e, he⟩ := hp.spans hb
      exact ⟨e, spans_symbol.mpr ⟨l, (reads_symbol.mp hl).1, he⟩⟩
    obtain ⟨e, he⟩ := hp.spans ha
    obtain ⟨es, hes⟩ := hrest.many.spans hbs
    refine ⟨e :: es, ?_⟩
    show Spans i (separated (words e :: es.map words)) j
    rw [separated, List.flatMap_def, List.map_map]
    exact he.append hes

theorem between {opening closing : Symbol} (hp : p.Sound words) :
    (between opening p closing).Sound fun e =>
      .symbol opening :: words e ++ [.symbol closing] := by
  intro i s a l t h
  obtain ⟨j, k, hj, ha, hl⟩ := reads_between.mp h
  obtain ⟨e, he⟩ := hp.spans ha
  exact ⟨e, spans_symbol.mpr ⟨j, hj, he.append (by simp [hl])⟩⟩

end Parser.Sound

variable {σ : Type} {i j : Input} {s t : σ}

/-- Nodes are made behind what is read already. -/
theorem eq_of_reads_node {first : Nat} {kind : NodeKind} {b c : Builder} {id : NodeId}
    (h : (node first kind).Reads i b id j c) : i = j := (reads_build.mp h).2

theorem eq_of_reads_typeNode {ty : Ty} {index : Nat} {b c : Builder} {id : NodeId}
    (h : (typeNode ty index).Reads i b id j c) : i = j := by
  cases ty with
  | named name =>
    obtain ⟨_, k, _, hk, h⟩ := reads_bind.mp h
    exact (reads_build.mp hk).2.trans (reads_build.mp h).2
  | _ => exact (reads_build.mp h).2

/-! ## Expressions -/

namespace Expr

variable {expr : TreeParser NodeId} {operand : Nat → TreeParser NodeId}

theorem arguments_sound (hE : expr.Sound Expr.words) :
    (arguments expr).Sound fun args : List Expr =>
      inParens (separated (args.map Expr.words)) := by
  intro i b _ l d h
  simp only [arguments, reads_named, reads_bind, reads_position] at h
  obtain ⟨_, _, _, ⟨rfl, rfl, rfl⟩, _, k, c, hargs, hnode⟩ := h
  exact eq_of_reads_node hnode ▸ hE.separatedBy.between.spans hargs

/-- The tokens behind a name say its arguments, if it has any. -/
theorem optional_arguments_sound (hE : expr.Sound Expr.words) :
    (optional (arguments expr)).Sound fun args : Option (List Expr) =>
      args.elim [] fun args => inParens (separated (args.map Expr.words)) := by
  intro i b _ j c h
  rcases reads_optional.mp h with ⟨_, -, hargs⟩ | ⟨-, -, rfl⟩
  · obtain ⟨args, hargs⟩ := (arguments_sound hE).spans hargs
    exact ⟨some args, hargs⟩
  · exact ⟨none, .nil i⟩

theorem atom_sound (hE : expr.Sound Expr.words) : (Bare.atom expr).Sound Expr.words := by
  intro i b _ l d h
  simp only [Bare.atom, reads_bind, reads_position] at h
  obtain ⟨_, _, _, ⟨rfl, rfl, rfl⟩, kind, k, c, hkind, hnode⟩ := h
  rw [← eq_of_reads_node hnode]
  obtain ⟨p, hp, u, hr⟩ := hkind.of_choice
  simp only [List.mem_cons, List.not_mem_nil, or_false] at hp
  rcases hp with rfl | rfl | rfl | rfl | rfl
  · obtain ⟨⟨x, hx, hf⟩, -⟩ := reads_select.mp hr
    split at hf <;> cases hf
    · exact ⟨.int _, spans_int.mpr ⟨k, hx, .nil k⟩⟩
    · exact ⟨.float _, spans_float.mpr ⟨k, hx, .nil k⟩⟩
    · exact ⟨.null, spans_keyword.mpr ⟨k, hx, .nil k⟩⟩
    · exact ⟨.this, spans_keyword.mpr ⟨k, hx, .nil k⟩⟩
  · simp only [stringLiteral, reads_decoded, Option.map_eq_some_iff] at hr
    obtain ⟨⟨raw, hx, value, hv, -⟩, -⟩ := hr
    exact ⟨.string value, .cons hx (by simp [hv]) (.nil k)⟩
  · simp only [creation, reads_bind, reads_keyword, reads_identifier, reads_pure] at hr
    obtain ⟨_, j, _, ⟨hj, -⟩, name, k', _, ⟨hk, -⟩, _, l', _, hargs, -, rfl, -⟩ := hr
    obtain ⟨args, hargs⟩ := (arguments_sound hE).spans hargs
    refine ⟨.new name args, ?_⟩
    rw [Expr.words, Expr.wordsOfEach_eq_map]
    exact spans_keyword.mpr ⟨j, hj, spans_name.mpr ⟨k', hk, hargs⟩⟩
  · simp only [nameOrCall, reads_bind, reads_identifier, reads_pure] at hr
    obtain ⟨name, j, _, ⟨hj, -⟩, _, k', _, hargs, -, rfl, -⟩ := hr
    obtain ⟨_ | args, hargs⟩ := (optional_arguments_sound hE).spans hargs
    · exact ⟨.name name, spans_name.mpr ⟨j, hj, hargs⟩⟩
    · refine ⟨.call name args, ?_⟩
      rw [Expr.words, Expr.wordsOfEach_eq_map]
      exact spans_name.mpr ⟨j, hj, hargs⟩
  · obtain ⟨_, hinner, -⟩ := reads_map.mp hr
    obtain ⟨e, he⟩ := hE.between.spans hinner
    exact ⟨.paren e, he⟩

theorem unary_sound (hO : ∀ n, (operand n).Sound Expr.words) (op : UnOp) :
    (Bare.unary operand op).Sound Expr.words := by
  intro i b _ l d h
  simp only [Bare.unary, reads_bind, reads_position, reads_symbol] at h
  obtain ⟨_, _, _, ⟨rfl, rfl, rfl⟩, _, j, _, ⟨hj, rfl⟩, _, k, c, hinner, hnode⟩ := h
  obtain ⟨e, he⟩ := (hO _).spans hinner
  exact ⟨.unary op e, eq_of_reads_node hnode ▸ spans_symbol.mpr ⟨j, hj, he⟩⟩

/-- An access behind `left`: the tokens taken say what it adds to the words. -/
theorem access_sound (hE : expr.Sound Expr.words) {i j l : Input} {left : Expr} {first : Nat}
    {object id : NodeId} {b d : Builder} (hl : Spans i left.words j)
    (h : (Bare.access expr first object).Reads j b id l d) : ∃ e : Expr, Spans i e.words l := by
  simp only [Bare.access, reads_bind, reads_symbol, reads_identifier] at h
  obtain ⟨_, k, _, ⟨hk, rfl⟩, member, k', _, ⟨hk', rfl⟩, _, l', c, hargs, hnode⟩ := h
  rw [← eq_of_reads_node hnode]
  obtain ⟨_ | args, hargs⟩ := (optional_arguments_sound hE).spans hargs
  · exact ⟨.field left member, hl.append
      (spans_symbol.mpr ⟨k, hk, spans_name.mpr ⟨k', hk', hargs⟩⟩)⟩
  · refine ⟨.method left member args, ?_⟩
    rw [Expr.words, Expr.wordsOfEach_eq_map]
    exact hl.append (spans_symbol.mpr ⟨k, hk, spans_name.mpr ⟨k', hk', hargs⟩⟩)

theorem binary_sound (hO : ∀ n, (operand n).Sound Expr.words) {i j l : Input} {left : Expr}
    {first : Nat} {object id : NodeId} {op : BinOp} {b d : Builder} (hl : Spans i left.words j)
    (h : (Bare.binary operand first object op).Reads j b id l d) :
    ∃ e : Expr, Spans i e.words l := by
  simp only [Bare.binary, reads_bind, reads_symbol] at h
  obtain ⟨_, k, _, ⟨hk, rfl⟩, _, l', c, hright, hnode⟩ := h
  obtain ⟨right, hright⟩ := (hO _).spans hright
  refine ⟨.binary op left right, ?_⟩
  exact eq_of_reads_node hnode ▸ hl.append (spans_symbol.mpr ⟨k, hk, hright⟩)

theorem operandWith_sound (hO : ∀ n, (operand n).Sound Expr.words) (power : Nat) :
    (Bare.operandWith operand power).Sound Expr.words := by
  intro i b id l d h
  have hE : (named .expression (operand 0)).Sound Expr.words := hO 0
  simp only [Bare.operandWith, reads_bind, reads_position] at h
  obtain ⟨_, _, _, ⟨rfl, rfl, rfl⟩, start, j, c, hstart, hext⟩ := h
  have first : ∃ e : Expr, Spans i e.words j := by
    obtain ⟨p, hp, u, hr⟩ := hstart.of_choice
    simp only [List.mem_cons, List.not_mem_nil, or_false] at hp
    rcases hp with rfl | rfl | rfl
    · exact (unary_sound hO .not).spans hr
    · exact (unary_sound hO .neg).spans hr
    · exact (atom_sound hE).spans hr
  -- the words of what is read so far grow with every access and every operator
  refine hext.extend_induct (P := fun _ k _ => ∃ e : Expr, Spans i e.words k) ?_
    (fun _ _ _ _ h _ => h) first
  rintro left k u _ l v ⟨e, he⟩ hstep
  obtain ⟨p, hp, w, hr⟩ := hstep.of_choice
  rcases List.mem_cons.mp hp with rfl | hp
  · exact access_sound hE he hr
  · obtain ⟨op, -, rfl⟩ := List.mem_map.mp hp
    exact binary_sound hO he hr

theorem operand_sound (fuel power : Nat) : (Bare.operand fuel power).Sound Expr.words := by
  induction fuel generalizing power with
  | zero => exact fun _ _ _ _ _ h => absurd h not_reads_fail
  | succ fuel ih => exact operandWith_sound ih power

end Expr

theorem reads_expression {id : NodeId} {b c : Builder} : expression.Reads i b id j c ↔
    (Expr.Bare.operand (i.rest.length + 1) 0).Reads i b id j c := by
  simp only [Reads, expression_eq, named]

theorem expression_sound : expression.Sound Expr.words :=
  fun i s a j t h => Expr.operand_sound _ 0 i s a j t (reads_expression.mp h)

/-! ## Statements -/

namespace Stmt

variable {stmt : TreeParser NodeId}

theorem condition_sound : condition.Sound fun e : Expr => inParens e.words :=
  expression_sound.between

theorem block_sound (hS : stmt.Sound Stmt.words) : (block stmt).Sound blockWords := by
  intro i b _ l d h
  simp only [block, reads_named, reads_bind, reads_position, reads_pure] at h
  obtain ⟨_, _, _, ⟨rfl, rfl, rfl⟩, _, k, c, hbody, _, _, _, hnode, -, rfl, -⟩ := h
  exact eq_of_reads_node hnode ▸ hS.many.between.spans hbody

theorem declaration_sound : declaration.Sound Stmt.words := by
  intro i b _ l d h
  simp only [declaration_eq, reads_named, reads_bind, reads_position, reads_identifier,
    reads_symbol, reads_pure] at h
  obtain ⟨_, _, _, ⟨rfl, rfl, rfl⟩, ty, j, _, hty, name, k, _, ⟨hk, -⟩, _, l', _, ⟨hl, -⟩, _, _, _,
    hnode, -, rfl, -⟩ := h
  have hend : Spans j [.name name, .symbol .semicolon] l' :=
    spans_name.mpr ⟨k, hk, spans_symbol.mpr ⟨l', hl, .nil l'⟩⟩
  exact ⟨.declare ty name, eq_of_reads_typeNode hnode ▸ (spans_of_typeName hty).append hend⟩

theorem conditional_sound (hS : stmt.Sound Stmt.words) : (conditional stmt).Sound Stmt.words := by
  intro i b _ m d h
  simp only [conditional, reads_named, reads_bind, reads_keyword, reads_optional] at h
  obtain ⟨_, j, _, ⟨hj, -⟩, _, k, _, hcond, _, l, _, hbody, o, m', _, ho, hm⟩ := h
  obtain ⟨cond, hcond⟩ := condition_sound.spans hcond
  obtain ⟨body, hbody⟩ := hS.spans hbody
  obtain ⟨_, rfl, _, l', _, ⟨hl, -⟩, hother⟩ | ⟨rfl, -, rfl⟩ := ho
  · obtain ⟨other, hother⟩ := hS.spans hother
    obtain ⟨-, rfl, -⟩ := reads_pure.mp hm
    refine ⟨.ifElse cond body other, ?_⟩
    simp only [Stmt.words, List.append_assoc, List.cons_append, spans_keyword]
    exact ⟨j, hj, hcond.append (hbody.append (spans_keyword.mpr ⟨l', hl, hother⟩))⟩
  · obtain ⟨-, rfl, -⟩ := reads_pure.mp hm
    exact ⟨.ifThen cond body, spans_keyword.mpr ⟨j, hj, hcond.append hbody⟩⟩

theorem loop_sound (hS : stmt.Sound Stmt.words) : (loop stmt).Sound Stmt.words := by
  intro i b _ l d h
  simp only [loop, reads_named, reads_bind, reads_keyword, reads_pure] at h
  obtain ⟨_, j, _, ⟨hj, -⟩, _, k, _, hcond, _, l', _, hbody, -, rfl, -⟩ := h
  obtain ⟨cond, hcond⟩ := condition_sound.spans hcond
  obtain ⟨body, hbody⟩ := hS.spans hbody
  exact ⟨.whileDo cond body, spans_keyword.mpr ⟨j, hj, hcond.append hbody⟩⟩

theorem returning_sound : returning.Sound Stmt.words := by
  intro i b _ l d h
  simp only [returning, reads_named, reads_bind, reads_keyword, reads_optional, reads_symbol,
    reads_pure] at h
  obtain ⟨_, j, _, ⟨hj, -⟩, _, k, _, ho, _, l', _, ⟨hl, -⟩, -, rfl, -⟩ := h
  obtain ⟨_, -, hvalue⟩ | ⟨-, -, rfl⟩ := ho
  · obtain ⟨value, hvalue⟩ := expression_sound.spans hvalue
    exact ⟨.ret (some value), spans_keyword.mpr ⟨j, hj, hvalue.append (by simp [hl])⟩⟩
  · exact ⟨.ret none, spans_keyword.mpr ⟨j, hj, spans_symbol.mpr ⟨l', hl, .nil l'⟩⟩⟩

theorem printing_sound : printing.Sound Stmt.words := by
  intro i b _ l d h
  simp only [printing, reads_named, reads_bind, reads_keyword, reads_symbol, reads_pure] at h
  obtain ⟨_, j, _, ⟨hj, -⟩, _, k, _, hvalue, _, l', _, ⟨hl, -⟩, -, rfl, -⟩ := h
  obtain ⟨value, hvalue⟩ := condition_sound.spans hvalue
  exact ⟨.print value, spans_keyword.mpr ⟨j, hj, hvalue.append (by simp [hl])⟩⟩

theorem evaluation_sound : evaluation.Sound Stmt.words := by
  intro i b _ l d h
  simp only [evaluation, reads_bind, reads_optional, reads_symbol] at h
  obtain ⟨_, j, _, htarget, o, k, _, ho, _, l', _, ⟨hl, -⟩, hs⟩ := h
  obtain ⟨target, htarget⟩ := expression_sound.spans htarget
  obtain ⟨_, rfl, _, j', _, ⟨hj, -⟩, hvalue⟩ | ⟨rfl, -, rfl⟩ := ho
  · obtain ⟨value, hvalue⟩ := expression_sound.spans hvalue
    obtain ⟨-, rfl, -⟩ := reads_pure.mp hs
    refine ⟨.assign target value, ?_⟩
    simp only [Stmt.words, List.append_assoc, List.cons_append]
    exact htarget.append (spans_symbol.mpr ⟨j', hj, hvalue.append (by simp [hl])⟩)
  · obtain ⟨-, rfl, -⟩ := reads_pure.mp hs
    exact ⟨.eval target, htarget.append (by simp [hl])⟩

/-- Both jumps are a keyword and a semicolon. -/
theorem jump_sound {k : Keyword} {kind : NodeKind} {jump : Stmt}
    (hw : jump.words = [.keyword k, .symbol .semicolon]) :
    (do keyword k; symbol .semicolon; return kind : TreeParser NodeKind).Sound fun _ : Unit =>
      jump.words := by
  intro i b _ l d h
  simp only [reads_bind, reads_keyword, reads_symbol, reads_pure] at h
  obtain ⟨_, j, _, ⟨hj, -⟩, _, l', _, ⟨hl, -⟩, -, rfl, -⟩ := h
  rw [hw]
  exact ⟨(), spans_keyword.mpr ⟨j, hj, spans_symbol.mpr ⟨l', hl, .nil l'⟩⟩⟩

theorem statementWith_sound (hS : stmt.Sound Stmt.words) :
    (statementWith stmt).Sound Stmt.words := by
  intro i b _ l d h
  simp only [statementWith, reads_named, reads_bind, reads_position] at h
  obtain ⟨_, _, _, ⟨rfl, rfl, rfl⟩, kind, j, c, hkind, hnode⟩ := h
  rw [← eq_of_reads_node hnode]
  obtain ⟨p, hp, u, hr⟩ := hkind.of_choice
  simp only [List.mem_cons, List.not_mem_nil, or_false] at hp
  rcases hp with rfl | rfl | rfl | rfl | rfl | rfl | rfl | rfl | rfl
  · obtain ⟨body, hbody⟩ := (block_sound hS).spans hr
    exact ⟨.block body, by rwa [Stmt.words, Stmt.wordsOfEach_eq_map]⟩
  · exact declaration_sound.spans hr
  · exact (conditional_sound hS).spans hr
  · exact (loop_sound hS).spans hr
  · exact returning_sound.spans hr
  · exact ⟨.brk, ((jump_sound rfl).spans hr).choose_spec⟩
  · exact ⟨.cont, ((jump_sound rfl).spans hr).choose_spec⟩
  · exact printing_sound.spans hr
  · exact evaluation_sound.spans hr

theorem statementWithin_sound (fuel : Nat) : (statementWithin fuel).Sound Stmt.words := by
  induction fuel with
  | zero => exact fun _ _ _ _ _ h => absurd h not_reads_fail
  | succ fuel ih => exact statementWith_sound ih

end Stmt

theorem reads_statement {id : NodeId} {b c : Builder} : statement.Reads i b id j c ↔
    (Stmt.statementWithin (i.rest.length + 1)).Reads i b id j c := by
  unfold statement Reads
  exact Iff.rfl

theorem statement_sound : statement.Sound Stmt.words :=
  fun i s a j t h => Stmt.statementWithin_sound _ i s a j t (reads_statement.mp h)

/-! ## Classes and programs -/

theorem compound_sound : compound.Sound blockWords := by
  intro i b _ l d h
  simp only [compound, reads_named, reads_bind, reads_position, reads_symbol] at h
  obtain ⟨_, _, _, ⟨rfl, rfl, rfl⟩, _, j, _, ⟨hj, rfl⟩, _, k, _, hbody, _, l', _, ⟨hl, rfl⟩, _,
    _, _, hstmts, hnode⟩ := h
  obtain ⟨body, hbody⟩ := statement_sound.many.spans hbody
  rw [← eq_of_reads_node hnode, ← eq_of_reads_node hstmts]
  exact ⟨body, spans_inBraces.mpr ⟨j, k, hj, hbody, hl⟩⟩

theorem parameter_sound : parameter.Sound Param.words := by
  intro i b _ l d h
  simp only [parameter_eq, reads_named, reads_bind, reads_position, reads_identifier] at h
  obtain ⟨_, _, _, ⟨rfl, rfl, rfl⟩, ty, j, _, hty, name, k, _, ⟨hk, -⟩, _, _, _, htype, hnode⟩ := h
  have hname : Spans j [.name name] k := spans_name.mpr ⟨k, hk, .nil k⟩
  rw [← eq_of_reads_node hnode, ← eq_of_reads_typeNode htype]
  exact ⟨⟨ty, name⟩, (spans_of_typeName hty).append hname⟩

theorem parameters_sound :
    parameters.Sound fun ps : List Param => inParens (separated (ps.map Param.words)) := by
  intro i b _ l d h
  simp only [parameters, reads_named, reads_bind, reads_position] at h
  obtain ⟨_, _, _, ⟨rfl, rfl, rfl⟩, _, k, c, hps, hnode⟩ := h
  exact eq_of_reads_node hnode ▸ parameter_sound.separatedBy.between.spans hps

theorem member_sound : member.Sound Member.words := by
  intro i b _ l d h
  simp only [member_eq, reads_named, reads_bind, reads_position, reads_identifier] at h
  obtain ⟨_, _, _, ⟨rfl, rfl, rfl⟩, ty, j, _, hty, name, k, _, ⟨hk, -⟩, rest, l', _, hrest, _, m, _,
    htype, hnode⟩ := h
  obtain rfl := eq_of_reads_typeNode htype
  have hl : l' = l := by
    cases rest <;> exact eq_of_reads_node hnode
  subst hl
  obtain ⟨p, hp, u, hr⟩ := hrest.of_choice
  simp only [List.mem_cons, List.not_mem_nil, or_false] at hp
  rcases hp with rfl | rfl
  · simp only [reads_bind, reads_symbol, reads_pure] at hr
    obtain ⟨_, l, _, ⟨hl, -⟩, -, rfl, -⟩ := hr
    have hend : Spans j [.name name, .symbol .semicolon] l :=
      spans_name.mpr ⟨k, hk, spans_symbol.mpr ⟨l, hl, .nil l⟩⟩
    exact ⟨.field ty name, (spans_of_typeName hty).append hend⟩
  · simp only [reads_bind, reads_pure] at hr
    obtain ⟨_, k', _, hparams, _, l, _, hbody, -, rfl, -⟩ := hr
    obtain ⟨params, hparams⟩ := parameters_sound.spans hparams
    obtain ⟨body, hbody⟩ := compound_sound.spans hbody
    exact ⟨.function ty name params body, (spans_of_typeName hty).append
      (spans_name.mpr ⟨k, hk, hparams.append hbody⟩)⟩

theorem members_sound : members.Sound fun ms : List Member => (ms.map Member.words).flatten := by
  intro i b _ l d h
  simp only [members, reads_bind, reads_position] at h
  obtain ⟨_, _, _, ⟨rfl, rfl, rfl⟩, _, k, c, hms, hnode⟩ := h
  exact eq_of_reads_node hnode ▸ member_sound.many.spans hms

theorem classDecl_sound : classDecl.Sound ClassDecl.words := by
  intro i b _ m d h
  simp only [classDecl, reads_named, reads_bind, reads_position, reads_keyword,
    reads_identifier] at h
  obtain ⟨_, _, _, ⟨rfl, rfl, rfl⟩, _, j, _, ⟨hj, rfl⟩, name, k, _, ⟨hk, rfl⟩, _, m', _, hmembers,
    hnode⟩ := h
  obtain ⟨ms, hms⟩ := members_sound.between.spans hmembers
  refine ⟨⟨name, ms⟩, eq_of_reads_node hnode ▸ ?_⟩
  exact spans_keyword.mpr ⟨j, hj, spans_name.mpr ⟨k, hk, hms⟩⟩

theorem unit_sound : unit.Sound Program.words := by
  intro i b _ l d h
  simp only [unit, reads_bind, reads_position, reads_endOfInput] at h
  obtain ⟨_, _, _, ⟨rfl, rfl, rfl⟩, _, j, _, hclasses, _, _, _, ⟨-, rfl, rfl⟩, hnode⟩ := h
  obtain ⟨classes, hclasses⟩ := classDecl_sound.many.spans hclasses
  exact ⟨⟨classes⟩, eq_of_reads_node hnode ▸ hclasses⟩

/-- An accepted token list spells some program. -/
theorem spells_of_run {tokens : List Token} {b c : Builder} {root : NodeId}
    (h : (entry .unit).run tokens b = .ok (root, c)) : ∃ p : Program, Spells tokens p.words := by
  obtain ⟨n, hr⟩ := run_eq_ok.mp h
  obtain ⟨p, hp⟩ := unit_sound.spans hr
  exact ⟨p, (spans_iff_spells.mp hp).1⟩

end FlatScope.Grammar
