import FlatScope.Proofs.Operands

/-!
# Every grouped statement is read

A statement is told from the others by its first tokens (`refuses_declaration_of_spans_expr` keeps
declarations and expressions apart), and it is read to its end, where no `else` may follow if it
ends in an open `if`. So `statement` builds every grouped statement (`builds_statement`).
-/

namespace FlatScope.Grammar

open FlatScope.Grammar.Parser

variable {i j k : Input} {e : Expr} {ws : List Word}

/-! ## First tokens -/

/-- The first token of an expression is one that an expression can start with. -/
theorem startsExpr_of_spans (h : Spans i (e.words ++ ws) j) :
    ∃ t, i.next? = some t ∧ t.startsExpr := by
  induction e generalizing ws with
  | string value =>
    obtain ⟨t, k, ht, hw, -⟩ := spans_cons.mp h
    obtain ⟨raw, rfl, -⟩ := Token.word?_eq_text.mp hw
    exact ⟨_, ht.next?, rfl⟩
  | int value =>
    obtain ⟨k, ht, -⟩ := spans_int.mp h
    exact ⟨_, ht.next?, rfl⟩
  | float value =>
    obtain ⟨k, ht, -⟩ := spans_float.mp h
    exact ⟨_, ht.next?, rfl⟩
  | null | this =>
    obtain ⟨k, ht, -⟩ := spans_keyword.mp h
    exact ⟨_, ht.next?, rfl⟩
  | name n =>
    obtain ⟨k, ht, -⟩ := spans_name.mp h
    exact ⟨_, ht.next?, rfl⟩
  | call n args =>
    obtain ⟨k, ht, -⟩ := spans_name.mp h
    exact ⟨_, ht.next?, rfl⟩
  | new className args =>
    obtain ⟨k, ht, -⟩ := spans_keyword.mp h
    exact ⟨_, ht.next?, rfl⟩
  | field object member ih =>
    rw [Expr.words, List.append_assoc] at h
    exact ih h
  | method object member args ih =>
    rw [Expr.words, List.append_assoc] at h
    exact ih h
  | binary op left right ih =>
    rw [Expr.words, List.append_assoc] at h
    exact ih h
  | unary op operand =>
    obtain ⟨k, ht, -⟩ := spans_symbol.mp h
    exact ⟨_, ht.next?, by cases op <;> rfl⟩
  | paren inner =>
    obtain ⟨k, ht, -⟩ := spans_symbol.mp h
    exact ⟨_, ht.next?, rfl⟩

/-- An expression is no declaration: no name follows on the name it may begin with. -/
theorem refuses_declaration_of_spans_expr {s : Symbol}
    (h : Spans i (e.words ++ .symbol s :: ws) j) : Stmt.declaration.Refuses i := by
  have named : ∀ {n : String} {s : Symbol} {ws : List Word},
      Spans i (.name n :: .symbol s :: ws) j → Stmt.declaration.Refuses i := by
    intro n s ws h
    obtain ⟨k, hi, hs⟩ := spans_name.mp h
    obtain ⟨l, hk, -⟩ := spans_symbol.mp hs
    have hty : Spans i [Ty.word (.named n)] k := spans_name.mpr ⟨k, hi, .nil k⟩
    exact Stmt.refuses_declaration_of_spans hty fun name => hk.next_ne (by simp)
  induction e generalizing s ws with
  | string value =>
    obtain ⟨t, k, ht, hw, -⟩ := spans_cons.mp h
    obtain ⟨raw, rfl, -⟩ := Token.word?_eq_text.mp hw
    exact Stmt.refuses_declaration (ht.lacks rfl)
  | int value =>
    obtain ⟨k, ht, -⟩ := spans_int.mp h
    exact Stmt.refuses_declaration (ht.lacks rfl)
  | float value =>
    obtain ⟨k, ht, -⟩ := spans_float.mp h
    exact Stmt.refuses_declaration (ht.lacks rfl)
  | null | this =>
    obtain ⟨k, ht, -⟩ := spans_keyword.mp h
    exact Stmt.refuses_declaration (ht.lacks rfl)
  | name n => exact named h
  | call n args => exact named h
  | new className args =>
    obtain ⟨k, ht, -⟩ := spans_keyword.mp h
    exact Stmt.refuses_declaration (ht.lacks rfl)
  | field object member ih =>
    rw [Expr.words, List.append_assoc] at h
    exact ih h
  | method object member args ih =>
    rw [Expr.words, List.append_assoc] at h
    exact ih h
  | binary op left right ih =>
    rw [Expr.words, List.append_assoc] at h
    exact ih h
  | unary op operand =>
    obtain ⟨k, ht, -⟩ := spans_symbol.mp h
    exact Stmt.refuses_declaration (ht.lacks (by cases op <;> rfl))
  | paren inner =>
    obtain ⟨k, ht, -⟩ := spans_symbol.mp h
    exact Stmt.refuses_declaration (ht.lacks rfl)

/-- No statement begins with `else`. -/
theorem next_ne_else {s : Stmt} (h : Spans i s.words j) :
    i.next? ≠ some (.keyword .else_) := by
  have expr : ∀ {e : Expr} {ws : List Word}, Spans i (e.words ++ ws) j →
      i.next? ≠ some (.keyword .else_) := by
    intro e ws h eq
    obtain ⟨t, ht, hstart⟩ := startsExpr_of_spans h
    rw [eq] at ht
    cases ht
    cases hstart
  cases s with
  | assign target value =>
    rw [Stmt.words, List.append_assoc] at h
    exact expr h
  | eval value => exact expr h
  | block body =>
    obtain ⟨k, ht, -⟩ := spans_symbol.mp h
    exact ht.next_ne (by simp)
  | declare ty name =>
    cases ty with
    | named n =>
      obtain ⟨k, ht, -⟩ := spans_name.mp h
      exact ht.next_ne (by simp)
    | _ =>
      obtain ⟨k, ht, -⟩ := spans_keyword.mp h
      exact ht.next_ne (by simp)
  | ret value =>
    cases value <;>
    · obtain ⟨k, ht, -⟩ := spans_keyword.mp h
      exact ht.next_ne (by simp)
  | _ =>
    obtain ⟨k, ht, -⟩ := spans_keyword.mp h
    exact ht.next_ne (by simp)

theorem words_ne_nil (s : Stmt) : s.words ≠ [] := by
  cases s with
  | ret value => cases value <;> simp [Stmt.words]
  | _ => simp [Stmt.words, inBraces, inParens]

/-! ## Statements -/

namespace Stmt

variable {stmt : TreeParser NodeId} {x : Piece} {l : Input}

/-- Behind a keyword only the form of that keyword is left, or a declaration of a built-in type. -/
theorem refuses_of_keyword (stmt : TreeParser NodeId) {w : Keyword} (hi : i.Takes (.keyword w) j)
    (hw : (Token.keyword w).startsType = false) :
    (block stmt).Refuses i ∧ declaration.Refuses i ∧ (w ≠ .if_ → (conditional stmt).Refuses i) ∧
      (w ≠ .while_ → (loop stmt).Refuses i) ∧ (w ≠ .return_ → returning.Refuses i) ∧
      (w ≠ .break_ → breaking.Refuses i) ∧ (w ≠ .continue_ → continuing.Refuses i) := by
  have next : ∀ {v : Keyword}, w ≠ v → i.next? ≠ some (.keyword v) := fun ne =>
    hi.next_ne (by simpa using ne)
  exact ⟨refuses_block (hi.next_ne (by simp)), refuses_declaration (hi.lacks hw),
    fun ne => refuses_conditional (next ne), fun ne => refuses_loop (next ne),
    fun ne => refuses_returning (next ne), fun ne => refuses_breaking (next ne),
    fun ne => refuses_continuing (next ne)⟩

theorem builds_condition (hg : e.grouped) (hs : Spans i (inParens e.words) j) :
    condition.Builds (.expr e) i j := by
  obtain ⟨k, l, hi, he, hl⟩ := spans_inParens.mp hs
  have hbuilds := builds_expression hg he (stops_of_next hl.next? rfl 0)
  intro b hb
  obtain ⟨o, c, hr, hrest⟩ := hbuilds b hb
  exact ⟨o, c, reads_between.mpr ⟨k, l, hi, hr, hl⟩, hrest⟩

/-- The head of a statement: a keyword and a condition. -/
theorem builds_head {w : Keyword} (hg : e.grouped)
    (hs : Spans i ((.keyword w :: inParens e.words) ++ ws) j) :
    ∃ k l, i.Takes (.keyword w) k ∧ condition.Builds (.expr e) k l ∧ Spans l ws j ∧
      l.rest.length < i.rest.length := by
  obtain ⟨l, hhead, hrest⟩ := spans_append.mp hs
  obtain ⟨k, hi, hcond⟩ := spans_keyword.mp hhead
  have hlt := Nat.lt_of_le_of_lt hcond.rest_le hi.rest_lt
  exact ⟨k, l, hi, builds_condition hg hcond, hrest, hlt⟩

/-- The statements between braces. -/
theorem builds_body {body : List Stmt}
    (each : ∀ s ∈ body, ∀ k l, k.rest.length ≤ i.rest.length → Spans k s.words l →
      l.next? ≠ some (.keyword .else_) → stmt.Builds (.stmt s) k l)
    (none : stmt.Refuses j) (stop : j.next? = some (.symbol .rightCurly))
    (h : Spans i (body.map Stmt.words).flatten j) :
    (many stmt).BuildsEach (body.map .stmt) i j := by
  refine builds_many each (fun s _ k l hs => next_ne_else hs) (fun s _ => words_ne_nil s) ?_ none h
  rw [stop]
  simp

theorem forms_block {body : List Stmt} (hi : i.Takes (.symbol .leftCurly) k)
    (h : (many stmt).BuildsEach (body.map .stmt) k l) (hl : l.Takes (.symbol .rightCurly) j) :
    (block stmt).Forms (.stmt (.block body)) i j := by
  intro b hb
  obtain ⟨os, c, hr, hadds, hos⟩ := (h.between hi hl) b hb
  obtain ⟨o, d, hnode, hadds', ho⟩ := exists_node hadds
    ⟨rfl, _, hos, NodeKind.assemble_statements body⟩ i.pos j
  refine ⟨.compound o.id, [o], d, ?_, hadds', rfl, [.stmts body], by simp [ho], rfl⟩
  unfold block
  rw [reads_named]
  exact .position (hr.bind (hnode.bind (reads_pure.mpr ⟨rfl, rfl, rfl⟩)))

theorem forms_declaration {ty : Ty} {name : String}
    (hs : Spans i [ty.word, .name name, .symbol .semicolon] j) :
    declaration.Forms (.stmt (.declare ty name)) i j := by
  obtain ⟨k, hty, hs⟩ : ∃ k, Spans i [ty.word] k ∧ Spans k [.name name, .symbol .semicolon] j :=
    spans_append.mp hs
  obtain ⟨l, hk, hs⟩ := spans_name.mp hs
  obtain ⟨m, hl, hs⟩ := spans_symbol.mp hs
  obtain rfl := spans_nil.mp hs
  intro b hb
  obtain ⟨o, c, hr, hadds, ho⟩ := builds_typeNode ty i.pos m b hb
  refine ⟨.declaration o.id name, [o], c, ?_, hadds, rfl, [.type ty], by simp [ho], rfl⟩
  have hname : identifier.Reads k b name l b := reads_identifier.mpr ⟨hk, rfl⟩
  rw [declaration_eq, reads_named]
  refine .position (Reads.bind (reads_typeName hty) (hname.bind (.symbol hl ?_)))
  exact hr.bind (reads_pure.mpr ⟨rfl, rfl, rfl⟩)

theorem forms_ifThen {body : Stmt} {m : Input} (hi : i.Takes (.keyword .if_) k)
    (hcond : condition.Builds (.expr e) k l) (hbody : stmt.Builds (.stmt body) l m)
    (hm : m.next? ≠ some (.keyword .else_)) :
    (conditional stmt).Forms (.stmt (.ifThen e body)) i m := by
  intro b hb
  obtain ⟨o, c, hr, hadds, ho⟩ := hcond b hb
  obtain ⟨o', d, hr', hadds', ho'⟩ := hbody c hadds.full
  refine ⟨.ifThen o.id o'.id, [o, o'], d, ?_, hadds.trans hadds', rfl, [.expr e, .stmt body],
    by simp [ho, ho'], rfl⟩
  have none : (optional (do keyword .else_; stmt)).Reads m d none m d :=
    ((refuses_keyword hm).bind _).optional
  unfold conditional
  rw [reads_named]
  exact .keyword hi (hr.bind (hr'.bind (none.bind (reads_pure.mpr ⟨rfl, rfl, rfl⟩))))

theorem forms_ifElse {body other : Stmt} {m n : Input} (hi : i.Takes (.keyword .if_) k)
    (hcond : condition.Builds (.expr e) k l) (hbody : stmt.Builds (.stmt body) l m)
    (hm : m.Takes (.keyword .else_) n) (hother : stmt.Builds (.stmt other) n j) :
    (conditional stmt).Forms (.stmt (.ifElse e body other)) i j := by
  intro b hb
  obtain ⟨o, c, hr, hadds, ho⟩ := hcond b hb
  obtain ⟨o', d, hr', hadds', ho'⟩ := hbody c hadds.full
  obtain ⟨o'', u, hr'', hadds'', ho''⟩ := hother d hadds'.full
  refine ⟨.ifElse o.id o'.id o''.id, [o, o', o''], u, ?_, hadds.trans (hadds'.trans hadds''), rfl,
    [.expr e, .stmt body, .stmt other], by simp [ho, ho', ho''], rfl⟩
  have some : (optional (do keyword .else_; stmt)).Reads m d (some o''.id) j u :=
    Reads.optional (.keyword hm hr'')
  unfold conditional
  rw [reads_named]
  exact .keyword hi (hr.bind (hr'.bind (some.bind (reads_pure.mpr ⟨rfl, rfl, rfl⟩))))

theorem forms_whileDo {body : Stmt} (hi : i.Takes (.keyword .while_) k)
    (hcond : condition.Builds (.expr e) k l) (hbody : stmt.Builds (.stmt body) l j) :
    (loop stmt).Forms (.stmt (.whileDo e body)) i j := by
  intro b hb
  obtain ⟨o, c, hr, hadds, ho⟩ := hcond b hb
  obtain ⟨o', d, hr', hadds', ho'⟩ := hbody c hadds.full
  refine ⟨.whileDo o.id o'.id, [o, o'], d, ?_, hadds.trans hadds', rfl, [.expr e, .stmt body],
    by simp [ho, ho'], rfl⟩
  unfold loop
  rw [reads_named]
  exact .keyword hi (hr.bind (hr'.bind (reads_pure.mpr ⟨rfl, rfl, rfl⟩)))

theorem forms_ret_none (hi : i.Takes (.keyword .return_) k) (hk : k.Takes (.symbol .semicolon) j) :
    returning.Forms (.stmt (.ret none)) i j := by
  refine forms_leaf (.ret none) (fun b => ?_) rfl rfl
  have none : (optional expression).Reads k b none k b :=
    (refuses_expression (hk.lacks rfl)).optional
  unfold returning
  rw [reads_named]
  exact .keyword hi (none.bind (.symbol hk (reads_pure.mpr ⟨rfl, rfl, rfl⟩)))

theorem forms_ret_some (hi : i.Takes (.keyword .return_) k)
    (hvalue : expression.Builds (.expr e) k l) (hl : l.Takes (.symbol .semicolon) j) :
    returning.Forms (.stmt (.ret (some e))) i j := by
  intro b hb
  obtain ⟨o, c, hr, hadds, ho⟩ := hvalue b hb
  refine ⟨.ret (some o.id), [o], c, ?_, hadds, rfl, [.expr e], by simp [ho], rfl⟩
  unfold returning
  rw [reads_named]
  exact .keyword hi (hr.optional.bind (.symbol hl (reads_pure.mpr ⟨rfl, rfl, rfl⟩)))

theorem forms_print (hi : i.Takes (.keyword .print) k) (hvalue : condition.Builds (.expr e) k l)
    (hl : l.Takes (.symbol .semicolon) j) : printing.Forms (.stmt (.print e)) i j := by
  intro b hb
  obtain ⟨o, c, hr, hadds, ho⟩ := hvalue b hb
  refine ⟨.print o.id, [o], c, ?_, hadds, rfl, [.expr e], by simp [ho], rfl⟩
  rw [printing, reads_named]
  exact .keyword hi (hr.bind (.symbol hl (reads_pure.mpr ⟨rfl, rfl, rfl⟩)))

theorem forms_eval (hvalue : expression.Builds (.expr e) i k)
    (hk : k.Takes (.symbol .semicolon) j) : evaluation.Forms (.stmt (.eval e)) i j := by
  intro b hb
  obtain ⟨o, c, hr, hadds, ho⟩ := hvalue b hb
  refine ⟨.eval o.id, [o], c, ?_, hadds, rfl, [.expr e], by simp [ho], rfl⟩
  have none : (optional (do symbol .assign; expression)).Reads k c none k c :=
    ((refuses_symbol (hk.next_ne (by simp))).bind _).optional
  exact hr.bind (none.bind (.symbol hk (reads_pure.mpr ⟨rfl, rfl, rfl⟩)))

theorem forms_assign {target value : Expr} {m : Input}
    (htarget : expression.Builds (.expr target) i k) (hk : k.Takes (.symbol .assign) l)
    (hvalue : expression.Builds (.expr value) l m) (hm : m.Takes (.symbol .semicolon) j) :
    evaluation.Forms (.stmt (.assign target value)) i j := by
  intro b hb
  obtain ⟨o, c, hr, hadds, ho⟩ := htarget b hb
  obtain ⟨o', d, hr', hadds', ho'⟩ := hvalue c hadds.full
  refine ⟨.assignment o.id o'.id, [o, o'], d, ?_, hadds.trans hadds', rfl,
    [.expr target, .expr value], by simp [ho, ho'], rfl⟩
  have some : (optional (do symbol .assign; expression)).Reads k c (some o'.id) m d :=
    Reads.optional (.symbol hk hr')
  exact hr.bind (some.bind (.symbol hm (reads_pure.mpr ⟨rfl, rfl, rfl⟩)))

/-- The form that is read becomes the node of the statement. -/
theorem builds_statementWith (h : (choice [block stmt, declaration, conditional stmt, loop stmt,
    returning, breaking, continuing, printing, evaluation]).Forms x i j) :
    (statementWith stmt).Builds x i j := by
  refine Builds.named (Builds.position ?_) _
  exact h.node i.pos

/-- Nothing but the last form is left for a statement that begins with an expression. -/
theorem builds_evaluation {s : Symbol} (h : evaluation.Forms x i j)
    (hs : Spans i (e.words ++ .symbol s :: ws) k) : (statementWith stmt).Builds x i j := by
  have next : ∀ t : Token, t.startsExpr = false → i.next? ≠ some t := by
    intro t ht eq
    obtain ⟨u, hu, hstart⟩ := startsExpr_of_spans hs
    rw [eq] at hu
    cases hu
    rw [ht] at hstart
    cases hstart
  refine builds_statementWith (h.choice [_, _, _, _, _, _, _, _] ?_)
  intro q hq
  simp only [List.mem_cons, List.not_mem_nil, or_false] at hq
  rcases hq with rfl | rfl | rfl | rfl | rfl | rfl | rfl | rfl
  · exact refuses_block (next _ rfl)
  · exact refuses_declaration_of_spans_expr hs
  · exact refuses_conditional (next _ rfl)
  · exact refuses_loop (next _ rfl)
  · exact refuses_returning (next _ rfl)
  · exact refuses_breaking (next _ rfl)
  · exact refuses_continuing (next _ rfl)
  · exact refuses_printing (next _ rfl)

/-- The words of `s` are read as `s` wherever they end, unless an `else` would be taken along. -/
def Readable (s : Stmt) : Prop :=
  ∀ fuel i j, i.rest.length ≤ fuel → Spans i s.words j →
    (s.endsOpen → j.next? ≠ some (.keyword .else_)) →
    (statementWith (statementWithin fuel)).Builds (.stmt s) i j

theorem Readable.builds {s : Stmt} {fuel : Nat} (h : Readable s) (hlt : i.rest.length < fuel)
    (hs : Spans i s.words j) (hopen : s.endsOpen → j.next? ≠ some (.keyword .else_)) :
    (statementWithin fuel).Builds (.stmt s) i j := by
  obtain ⟨fuel, rfl⟩ : ∃ n, fuel = n + 1 := ⟨fuel - 1, by omega⟩
  exact h fuel i j (by omega) hs hopen

theorem readable_block {body : List Stmt} (h : ∀ s ∈ body, Readable s) :
    Readable (.block body) := by
  intro fuel i j hle hs _
  rw [Stmt.words, Stmt.wordsOfEach_eq_map] at hs
  obtain ⟨k, l, hi, hbody, hl⟩ := spans_inBraces.mp hs
  have hlt := hi.rest_lt
  have items : (many (statementWithin fuel)).BuildsEach (body.map .stmt) k l := by
    refine builds_body ?_ (refuses_statementWithin hl.next? fuel) hl.next? hbody
    intro s hs m n hle' hspans hn
    exact (h s hs).builds (by omega) hspans fun _ => hn
  exact builds_statementWith ((forms_block hi items hl).choice [] (by simp))

theorem readable_declare (ty : Ty) (name : String) : Readable (.declare ty name) := by
  intro fuel i j _ hs _
  have brace : i.next? ≠ some (.symbol .leftCurly) := by
    obtain ⟨t, k, ht, hw, -⟩ := spans_cons.mp hs
    refine ht.next_ne fun eq => ?_
    subst eq
    cases ty <;> cases hw
  refine builds_statementWith ((forms_declaration hs).choice [_] ?_)
  simp [refuses_block brace]

theorem readable_assign {target value : Expr} (ht : target.grouped) (hv : value.grouped) :
    Readable (.assign target value) := by
  intro fuel i j _ hs _
  rw [Stmt.words, List.append_assoc] at hs
  obtain ⟨k, htarget, hrest⟩ := spans_append.mp hs
  obtain ⟨l, hk, hrest⟩ := spans_symbol.mp hrest
  obtain ⟨m, hvalue, hrest⟩ := spans_append.mp hrest
  obtain ⟨n, hm, hrest⟩ := spans_symbol.mp hrest
  obtain rfl := spans_nil.mp hrest
  have hbt := builds_expression ht htarget (stops_of_next hk.next? rfl 0)
  have hbv := builds_expression hv hvalue (stops_of_next hm.next? rfl 0)
  exact builds_evaluation (forms_assign hbt hk hbv hm) hs

theorem readable_eval {value : Expr} (hv : value.grouped) : Readable (.eval value) := by
  intro fuel i j _ hs _
  obtain ⟨k, hvalue, hrest⟩ := spans_append.mp hs
  obtain ⟨l, hk, hrest⟩ := spans_symbol.mp hrest
  obtain rfl := spans_nil.mp hrest
  have hbv := builds_expression hv hvalue (stops_of_next hk.next? rfl 0)
  exact builds_evaluation (forms_eval hbv hk) hs

theorem readable_ifThen {cond : Expr} {body : Stmt} (hc : cond.grouped) (hb : Readable body) :
    Readable (.ifThen cond body) := by
  intro fuel i j hle hs hopen
  obtain ⟨k, l, hi, hbc, hbody, hlt⟩ := builds_head hc hs
  have hbb : (statementWithin fuel).Builds (.stmt body) l j :=
    hb.builds (by omega) hbody fun _ => hopen rfl
  obtain ⟨hblock, hdecl, -⟩ := refuses_of_keyword (statementWithin fuel) hi rfl
  refine builds_statementWith ((forms_ifThen hi hbc hbb (hopen rfl)).choice [_, _] ?_)
  simp [hblock, hdecl]

theorem readable_ifElse {cond : Expr} {body other : Stmt} (hc : cond.grouped) (hb : Readable body)
    (closed : body.endsOpen = false) (ho : Readable other) :
    Readable (.ifElse cond body other) := by
  intro fuel i j hle hs hopen
  obtain ⟨m, hs, hother⟩ := spans_append.mp hs
  obtain ⟨k, l, hi, hbc, hbody, hlt⟩ := builds_head hc hs
  obtain ⟨n, hm, hother⟩ := spans_keyword.mp hother
  have hle' := hbody.rest_le
  have hlt' := hm.rest_lt
  -- the first branch does not end open, so it leaves the `else` alone
  have hbb : (statementWithin fuel).Builds (.stmt body) l m :=
    hb.builds (by omega) hbody fun h => by
      rw [closed] at h
      cases h
  have hbo : (statementWithin fuel).Builds (.stmt other) n j := ho.builds (by omega) hother hopen
  obtain ⟨hblock, hdecl, -⟩ := refuses_of_keyword (statementWithin fuel) hi rfl
  refine builds_statementWith ((forms_ifElse hi hbc hbb hm hbo).choice [_, _] ?_)
  simp [hblock, hdecl]

theorem readable_whileDo {cond : Expr} {body : Stmt} (hc : cond.grouped) (hb : Readable body) :
    Readable (.whileDo cond body) := by
  intro fuel i j hle hs hopen
  obtain ⟨k, l, hi, hbc, hbody, hlt⟩ := builds_head hc hs
  have hbb : (statementWithin fuel).Builds (.stmt body) l j := hb.builds (by omega) hbody hopen
  obtain ⟨hblock, hdecl, hif, -⟩ := refuses_of_keyword (statementWithin fuel) hi rfl
  refine builds_statementWith ((forms_whileDo hi hbc hbb).choice [_, _, _] ?_)
  simp [hblock, hdecl, hif]

theorem readable_ret {value : Option Expr} (hv : ∀ e ∈ value, e.grouped) :
    Readable (.ret value) := by
  intro fuel i j _ hs _
  cases value with
  | none =>
    obtain ⟨k, hi, hrest⟩ := spans_keyword.mp hs
    obtain ⟨l, hk, hrest⟩ := spans_symbol.mp hrest
    obtain rfl := spans_nil.mp hrest
    obtain ⟨hblock, hdecl, hif, hwhile, -⟩ := refuses_of_keyword (statementWithin fuel) hi rfl
    refine builds_statementWith ((forms_ret_none hi hk).choice [_, _, _, _] ?_)
    simp [hblock, hdecl, hif, hwhile]
  | some value =>
    obtain ⟨k, hi, hrest⟩ := spans_keyword.mp hs
    obtain ⟨l, hvalue, hrest⟩ := spans_append.mp hrest
    obtain ⟨m, hl, hrest⟩ := spans_symbol.mp hrest
    obtain rfl := spans_nil.mp hrest
    have hbv := builds_expression (hv value rfl) hvalue (stops_of_next hl.next? rfl 0)
    obtain ⟨hblock, hdecl, hif, hwhile, -⟩ := refuses_of_keyword (statementWithin fuel) hi rfl
    refine builds_statementWith ((forms_ret_some hi hbv hl).choice [_, _, _, _] ?_)
    simp [hblock, hdecl, hif, hwhile]

theorem readable_brk : Readable .brk := by
  intro fuel i j _ hs _
  obtain ⟨k, hi, hrest⟩ := spans_keyword.mp hs
  obtain ⟨l, hk, hrest⟩ := spans_symbol.mp hrest
  obtain rfl := spans_nil.mp hrest
  have hforms : breaking.Forms (.stmt .brk) i l := forms_leaf .brk
    (fun b => .keyword hi (.symbol hk (reads_pure.mpr ⟨rfl, rfl, rfl⟩))) rfl rfl
  obtain ⟨hblock, hdecl, hif, hwhile, hret, -⟩ := refuses_of_keyword (statementWithin fuel) hi rfl
  refine builds_statementWith (hforms.choice [_, _, _, _, _] ?_)
  simp [hblock, hdecl, hif, hwhile, hret]

theorem readable_cont : Readable .cont := by
  intro fuel i j _ hs _
  obtain ⟨k, hi, hrest⟩ := spans_keyword.mp hs
  obtain ⟨l, hk, hrest⟩ := spans_symbol.mp hrest
  obtain rfl := spans_nil.mp hrest
  have hforms : continuing.Forms (.stmt .cont) i l := forms_leaf .cont
    (fun b => .keyword hi (.symbol hk (reads_pure.mpr ⟨rfl, rfl, rfl⟩))) rfl rfl
  obtain ⟨hblock, hdecl, hif, hwhile, hret, hbreak, -⟩ :=
    refuses_of_keyword (statementWithin fuel) hi rfl
  refine builds_statementWith (hforms.choice [_, _, _, _, _, _] ?_)
  simp [hblock, hdecl, hif, hwhile, hret, hbreak]

theorem readable_print {value : Expr} (hv : value.grouped) : Readable (.print value) := by
  intro fuel i j _ hs _
  obtain ⟨k, l, hi, hbv, hrest, -⟩ := builds_head hv hs
  obtain ⟨m, hl, hrest⟩ := spans_symbol.mp hrest
  obtain rfl := spans_nil.mp hrest
  obtain ⟨hblock, hdecl, hif, hwhile, hret, hbreak, hcont⟩ :=
    refuses_of_keyword (statementWithin fuel) hi rfl
  refine builds_statementWith ((forms_print hi hbv hl).choice [_, _, _, _, _, _, _] ?_)
  simp [hblock, hdecl, hif, hwhile, hret, hbreak, hcont]

/-- Grouped statements are read as they are, the inside before the outside. -/
theorem readable (s : Stmt) (hg : s.grouped) : Readable s := by
  induction s with
  | block body ih =>
    simp only [Stmt.grouped, Stmt.groupedAll_eq_all, List.all_eq_true] at hg
    exact readable_block fun s hs => ih s hs (hg s hs)
  | declare ty name => exact readable_declare ty name
  | assign target value =>
    simp only [Stmt.grouped, Bool.and_eq_true] at hg
    exact readable_assign hg.1 hg.2
  | ifThen cond body ih =>
    simp only [Stmt.grouped, Bool.and_eq_true] at hg
    exact readable_ifThen hg.1 (ih hg.2)
  | ifElse cond body other ihb iho =>
    simp only [Stmt.grouped, Bool.and_eq_true, Bool.not_eq_true'] at hg
    obtain ⟨⟨⟨hc, hb⟩, closed⟩, ho⟩ := hg
    exact readable_ifElse hc (ihb hb) closed (iho ho)
  | whileDo cond body ih =>
    simp only [Stmt.grouped, Bool.and_eq_true] at hg
    exact readable_whileDo hg.1 (ih hg.2)
  | ret value =>
    refine readable_ret fun e he => ?_
    obtain rfl := Option.mem_def.mp he
    exact hg
  | brk => exact readable_brk
  | cont => exact readable_cont
  | print value => exact readable_print hg
  | eval value => exact readable_eval hg

end Stmt

/-- A grouped statement is read to its end. -/
theorem builds_statement {s : Stmt} (hg : s.grouped) (hs : Spans i s.words j)
    (hopen : s.endsOpen → j.next? ≠ some (.keyword .else_)) :
    statement.Builds (.stmt s) i j := by
  intro b hb
  obtain ⟨o, c, hr, hrest⟩ :=
    (Stmt.readable s hg).builds (Nat.lt_succ_self i.rest.length) hs hopen b hb
  exact ⟨o, c, reads_statement.mpr hr, hrest⟩

end FlatScope.Grammar
