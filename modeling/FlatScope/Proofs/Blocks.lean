import FlatScope.Ast.Build
import FlatScope.Proofs.Refusal
import FlatScope.Proofs.Reports

/-!
# Blocks as bodies and as statements

The grammar reads a block in two ways: `compound` is the body of a function, `Stmt.block` the first
form of a statement. Where a brace opens both read the same and build the same nodes
(`reads_compound_iff`). The statements inside are read with different fuel, but above the number of
tokens left fuel does not matter (`Stmt.statementWithin_eq`): `p i = p' i` says that two parsers do
the same from place `i` on, failed attempts included, and every combinator passes that on.
-/

namespace FlatScope.Grammar

namespace Parser

variable {σ α β : Type} {p p' q q' : Parser σ α} {i : Input}

theorem bind_congr {f f' : α → Parser σ β} (hp : p i = p' i)
    (hf : ∀ s a j t, p.Reads i s a j t → f a j = f' a j) : (p >>= f) i = (p' >>= f') i := by
  funext s
  cases hr : (p i s).result with
  | none =>
    have hr' : (p' i s).result = none := hp ▸ hr
    rw [bind_of_none hr, bind_of_none hr', hp]
  | some r =>
    obtain ⟨a, j⟩ := r
    have hr' : (p' i s).result = some (a, j) := hp ▸ hr
    rw [bind_of_some hr, bind_of_some hr', hp, hf s a j _ ⟨hr, rfl⟩]

theorem Refuses.not_reads {s t : σ} {a : α} {j : Input} (h : p.Refuses i) :
    ¬ p.Reads i s a j t := by
  rintro ⟨hr, -⟩
  rw [(h s).1] at hr
  cases hr

theorem orElse_congr (hp : p i = p' i) (hq : q i = q' i) : orElse p q i = orElse p' q' i := by
  funext s
  unfold orElse
  rw [hp, hq]

theorem named_congr (hp : p i = p' i) (phrase : Phrase) :
    named phrase p i = named phrase p' i := by
  funext s
  unfold named
  rw [hp]

theorem optional_congr (hp : p i = p' i) : optional p i = optional p' i :=
  orElse_congr (bind_congr hp fun _ _ _ _ _ => rfl) rfl

/-- What is read never makes the rest longer, so all turns are at places that are covered. -/
theorem many_congr (hp : ∀ j, j.rest.length ≤ i.rest.length → p j = p' j)
    (hle : ∀ j s a k t, p.Reads j s a k t → k.rest.length ≤ j.rest.length) :
    many p i = many p' i := by
  have go : ∀ fuel j, j.rest.length ≤ i.rest.length →
      manyWithin p fuel j = manyWithin p' fuel j := by
    intro fuel
    induction fuel with
    | zero => exact fun _ _ => rfl
    | succ fuel ih =>
      intro j hj
      refine bind_congr (optional_congr (hp j hj)) fun s o k t hr => ?_
      rcases reads_optional.mp hr with ⟨a, rfl, ha⟩ | ⟨rfl, -, -⟩
      · have hk := hle j s a k t ha
        exact bind_congr (ih k (by omega)) fun _ _ _ _ _ => rfl
      · rfl
  exact go _ i (Nat.le_refl _)

end Parser

open FlatScope.Grammar.Parser

namespace Stmt

variable {stmt stmt' : TreeParser NodeId} {i : Input}

theorem rest_le_of_reads (hS : stmt.Sound Stmt.words) (j : Input) (b : Builder) (id : NodeId)
    (k : Input) (c : Builder) (h : stmt.Reads j b id k c) : k.rest.length ≤ j.rest.length := by
  obtain ⟨s, hs⟩ := hS.spans h
  exact hs.rest_le

/-- A condition is behind a token of its own. -/
theorem rest_lt_of_reads_condition {j : Input} {b c : Builder} {id : NodeId}
    (h : condition.Reads i b id j c) : j.rest.length < i.rest.length := by
  obtain ⟨e, he⟩ := condition_sound.spans h
  exact he.rest_lt (by simp [inParens])

section

variable (h : ∀ j, j.rest.length < i.rest.length → stmt j = stmt' j) (hS : stmt.Sound Stmt.words)

include h

theorem loop_congr : loop stmt i = loop stmt' i := by
  refine named_congr (bind_congr rfl fun s _ j t hr => ?_) _
  have hj := (reads_keyword.mp hr).1.rest_lt
  refine bind_congr rfl fun s cond k t hr => ?_
  have hk := rest_lt_of_reads_condition hr
  exact bind_congr (h k (by omega)) fun _ _ _ _ _ => rfl

include hS

theorem block_congr : block stmt i = block stmt' i := by
  refine named_congr (bind_congr rfl fun s first j t hr => ?_) _
  obtain ⟨-, rfl, -⟩ := reads_position.mp hr
  refine bind_congr ?_ fun _ _ _ _ _ => rfl
  refine bind_congr rfl fun s _ j t hr => ?_
  have hj := (reads_symbol.mp hr).1.rest_lt
  refine bind_congr (many_congr (fun k hk => h k (by omega)) (rest_le_of_reads hS)) ?_
  exact fun _ _ _ _ _ => rfl

theorem conditional_congr : conditional stmt i = conditional stmt' i := by
  refine named_congr (bind_congr rfl fun s _ j t hr => ?_) _
  have hj := (reads_keyword.mp hr).1.rest_lt
  refine bind_congr rfl fun s cond k t hr => ?_
  have hk := rest_lt_of_reads_condition hr
  refine bind_congr (h k (by omega)) fun s body l t hr => ?_
  have hl := rest_le_of_reads hS k s body l t hr
  refine bind_congr (optional_congr ?_) fun _ _ _ _ _ => rfl
  refine bind_congr rfl fun s _ m t hr => h m ?_
  have hm := (reads_keyword.mp hr).1.rest_lt
  omega

/-- A statement depends on the statements inside only behind its first token. -/
theorem statementWith_congr : statementWith stmt i = statementWith stmt' i := by
  refine named_congr (bind_congr rfl fun s first j t hr => ?_) _
  obtain ⟨-, rfl, -⟩ := reads_position.mp hr
  refine bind_congr ?_ fun _ _ _ _ _ => rfl
  exact orElse_congr (block_congr h hS) (orElse_congr rfl
    (orElse_congr (conditional_congr h hS) (orElse_congr (loop_congr h) rfl)))

end

/-- Above the number of tokens left, fuel does not matter. -/
theorem statementWithin_eq (fuel fuel' : Nat) (i : Input) (h : i.rest.length < fuel)
    (h' : i.rest.length < fuel') : statementWithin fuel i = statementWithin fuel' i := by
  induction fuel generalizing fuel' i with
  | zero => omega
  | succ fuel ih =>
    obtain ⟨fuel', rfl⟩ : ∃ n, fuel' = n + 1 := ⟨fuel' - 1, by omega⟩
    exact statementWith_congr (fun j hj => ih fuel' j (by omega) (by omega))
      (statementWithin_sound fuel)

end Stmt

/-- A statement is one of the forms with statements inside. -/
theorem statement_eq : statement = Stmt.statementWith statement := by
  funext i
  refine Stmt.statementWith_congr (fun j hj => ?_) (Stmt.statementWithin_sound _)
  exact Stmt.statementWithin_eq _ _ j hj (Nat.lt_succ_self _)

section

variable {i j : Input} {b c : Builder} {id : NodeId}

/-- A body is a block with a node around its list. -/
theorem reads_compound : compound.Reads i b id j c ↔
    ∃ kind d, (Stmt.block statement).Reads i b kind j d ∧ (node i.pos kind).Reads j d id j c := by
  simp only [compound, Stmt.block, reads_named, reads_bind, reads_position, reads_symbol,
    reads_between, reads_pure]
  constructor
  · rintro ⟨_, _, _, ⟨rfl, rfl, rfl⟩, _, k, _, ⟨hk, rfl⟩, items, l, d, hitems, _, m, _, ⟨hm, rfl⟩,
      stmts, n, e, hstmts, hnode⟩
    have hmn := eq_of_reads_node hstmts
    have hnj := eq_of_reads_node hnode
    subst hmn hnj
    exact ⟨.compound stmts, e, ⟨_, _, _, ⟨rfl, rfl, rfl⟩, items, m, d, ⟨k, l, hk, hitems, hm⟩,
      stmts, m, e, hstmts, rfl, rfl, rfl⟩, hnode⟩
  · rintro ⟨_, _, ⟨_, _, _, ⟨rfl, rfl, rfl⟩, items, m, d, ⟨k, l, hk, hitems, hm⟩, stmts, n, e,
      hstmts, rfl, rfl, rfl⟩, hnode⟩
    have hmn := eq_of_reads_node hstmts
    subst hmn
    exact ⟨_, _, _, ⟨rfl, rfl, rfl⟩, (), k, b, ⟨hk, rfl⟩, items, l, d, hitems, (), m, d, ⟨hm, rfl⟩,
      stmts, m, e, hstmts, hnode⟩

/-- Behind an open brace only one form of a statement is left. -/
theorem reads_statement_of_brace (h : i.next? = some (.symbol .leftCurly)) :
    statement.Reads i b id j c ↔
      ∃ kind d, (Stmt.block statement).Reads i b kind j d ∧ (node i.pos kind).Reads j d id j c := by
  have next : ∀ {t : Token}, t ≠ .symbol .leftCurly → i.next? ≠ some t := by
    intro t ht heq
    exact ht (Option.some.inj (heq.symm.trans h))
  have others : ∀ p ∈ [Stmt.declaration, Stmt.conditional statement, Stmt.loop statement,
      Stmt.returning, Stmt.breaking, Stmt.continuing, Stmt.printing, Stmt.evaluation],
      p.Refuses i := by
    intro p hp
    simp only [List.mem_cons, List.not_mem_nil, or_false] at hp
    rcases hp with rfl | rfl | rfl | rfl | rfl | rfl | rfl | rfl
    · exact Stmt.refuses_declaration (Input.lacks_of_next h rfl)
    · exact Stmt.refuses_conditional (next (by simp))
    · exact Stmt.refuses_loop (next (by simp))
    · exact Stmt.refuses_returning (next (by simp))
    · exact Stmt.refuses_breaking (next (by simp))
    · exact Stmt.refuses_continuing (next (by simp))
    · exact Stmt.refuses_printing (next (by simp))
    · exact (refuses_expression (Input.lacks_of_next h rfl)).bind _
  have hread : statement.Reads i b id j c ↔ (Stmt.statementWith statement).Reads i b id j c := by
    rw [← statement_eq]
  rw [hread]
  simp only [Stmt.statementWith, reads_named, reads_bind, reads_position]
  constructor
  · rintro ⟨_, _, _, ⟨rfl, rfl, rfl⟩, kind, k, d, hkind, hnode⟩
    obtain rfl := eq_of_reads_node hnode
    rcases reads_choice_cons.mp hkind with hblock | ⟨e, -, hother⟩
    · exact ⟨kind, d, hblock, hnode⟩
    · exact absurd hother (refuses_choice others).not_reads
  · rintro ⟨kind, d, hblock, hnode⟩
    exact ⟨_, _, _, ⟨rfl, rfl, rfl⟩, kind, j, d, reads_choice_cons.mpr (.inl hblock), hnode⟩

/-- Where a brace opens, a body and a statement are read alike and leave the same tree. -/
theorem reads_compound_iff (h : i.next? = some (.symbol .leftCurly)) :
    compound.Reads i b id j c ↔ statement.Reads i b id j c :=
  reads_compound.trans (reads_statement_of_brace h).symm

end

end FlatScope.Grammar

namespace FlatScope.Ast

open Grammar Grammar.Parser

/-- A part of the language is read if its parser stops at the end of the tokens. -/
theorem ofLexemes_eq_ok {e : Entry} {source length : Nat} {lexemes : List Lexeme} {ast : Ast}
    {root : NodeId} : ofLexemes e source length lexemes = .ok (ast, root) ↔
      ∃ n c, (entry e).Reads ⟨0, lexemes.map (·.token)⟩ ⟨lexemes.toArray, length, .empty source⟩
        root ⟨n, []⟩ c ∧ c.ast = ast := by
  unfold ofLexemes
  dsimp only
  split
  · next top b hrun =>
    simp only [Except.ok.injEq, Prod.mk.injEq]
    constructor
    · rintro ⟨rfl, rfl⟩
      obtain ⟨n, hr⟩ := run_eq_ok.mp hrun
      exact ⟨n, b, hr, rfl⟩
    · rintro ⟨n, c, hr, rfl⟩
      cases hrun.symm.trans (run_eq_ok.mpr ⟨n, hr⟩)
      exact ⟨rfl, rfl⟩
  · next hrun =>
    constructor
    · nofun
    · rintro ⟨n, c, hr, -⟩
      cases hrun.symm.trans (run_eq_ok.mpr ⟨n, hr⟩)

/-- Tokens that begin with a brace are a body if they are a statement, with the same arena. -/
theorem ofLexemes_block_iff (source length : Nat) {lexemes : List Lexeme}
    (h : lexemes.head?.map (·.token) = some (.symbol .leftCurly)) (ast : Ast) (root : NodeId) :
    ofLexemes .block source length lexemes = .ok (ast, root) ↔
      ofLexemes .statement source length lexemes = .ok (ast, root) := by
  have hnext : (⟨0, lexemes.map (·.token)⟩ : Input).next? = some (.symbol .leftCurly) := by
    simpa [Input.next?] using h
  rw [ofLexemes_eq_ok, ofLexemes_eq_ok]
  simp only [entry, reads_compound_iff hnext]

/-- A block with a declaration, a block and a loop inside. -/
theorem ofLexemes_block_iff_nested : ∃ (lexemes : List Lexeme) (ast : Ast) (root : NodeId),
    lexemes = Lexer.lex "{ A x; { x = 1; } while (x) if (x) { } else x; }".toList ∧
      lexemes.head?.map (·.token) = some (.symbol .leftCurly) ∧
      ofLexemes .block 0 48 lexemes = .ok (ast, root) ∧
      ofLexemes .statement 0 48 lexemes = .ok (ast, root) := by
  let lexemes := Lexer.lex "{ A x; { x = 1; } while (x) if (x) { } else x; }".toList
  have hfirst : lexemes.head?.map (·.token) = some (.symbol .leftCurly) := by decide +kernel
  have hok : (ofLexemes .block 0 48 lexemes).isOk := by decide +kernel
  cases h : ofLexemes .block 0 48 lexemes with
  | error e =>
    rw [h] at hok
    cases hok
  | ok r => exact ⟨lexemes, r.1, r.2, rfl, hfirst, h, (ofLexemes_block_iff 0 48 hfirst _ _).mp h⟩

end FlatScope.Ast
