import FlatScope.Ast.Build
import FlatScope.Proofs.Completeness
import FlatScope.Proofs.Sentence

/-!
# What parsing accepts and returns

A token list is read as a program exactly if it spells one, and then the tree in the arena is the
one grouped program that it spells. Both directions meet in `ofLexemes_of_spells`: reading a grouped
program back from its words makes one tree in the empty arena and nothing else. What is accepted
spells some program (`spells_of_run`), so also a grouped one, and that one was read.
-/

namespace FlatScope.Ast

open FlatScope.Grammar

variable {source length : Nat} {lexemes : List Lexeme}

/-- What is built from all tokens is the result, and nothing else is in the arena. -/
theorem ofLexemes_of_builds (source length : Nat) {e : Entry} {x : Piece} {n : Nat}
    (h : (entry e).Builds x ⟨0, lexemes.map (·.token)⟩ ⟨n, []⟩) :
    ∃ ast o, ofLexemes e source length lexemes = .ok (ast, o.id) ∧
      (empty source).Adds ast [o] ∧ o.piece? = some x := by
  obtain ⟨o, c, hr, hadds, ho⟩ := h ⟨lexemes.toArray, length, .empty source⟩ rfl
  refine ⟨c.ast, o, ?_, hadds, ho⟩
  unfold ofLexemes
  simp only [Parser.run_eq_ok.mpr ⟨_, hr⟩]

/-- The words of a grouped program are read as that program; nothing else is in the arena. -/
theorem ofLexemes_of_spells (source length : Nat) {p : Program} (hg : p.grouped)
    (hs : Spells (lexemes.map (·.token)) p.words) :
    ∃ ast o, ofLexemes .unit source length lexemes = .ok (ast, o.id) ∧
      (empty source).Adds ast [o] ∧ o.piece? = some (.program p) := by
  have hspans : Spans ⟨0, lexemes.map (·.token)⟩ p.words ⟨0 + (lexemes.map (·.token)).length, []⟩ :=
    spans_iff_spells.mpr ⟨hs, rfl⟩
  exact ofLexemes_of_builds source length (e := .unit) (builds_unit hg hspans rfl)

/-- An accepted token list was read as a grouped program that it spells. -/
theorem exists_of_ofLexemes {ast : Ast} {root : NodeId}
    (h : ofLexemes .unit source length lexemes = .ok (ast, root)) :
    ∃ (p : Program) (o : Outline), p.grouped ∧ Spells (lexemes.map (·.token)) p.words ∧
      root = o.id ∧ (empty source).Adds ast [o] ∧ o.piece? = some (.program p) := by
  obtain ⟨p, hp⟩ : ∃ p : Program, Spells (lexemes.map (·.token)) p.words := by
    unfold ofLexemes at h
    dsimp only at h
    split at h
    · next hr => exact spells_of_run hr
    · cases h
  -- the grouped program with the same words must have been read, for reading is a function
  have hs : Spells (lexemes.map (·.token)) p.regroup.words := by rwa [p.words_regroup]
  obtain ⟨ast', o, hok, hadds, ho⟩ :=
    ofLexemes_of_spells source length p.grouped_regroup hs
  rw [h] at hok
  cases hok
  exact ⟨p.regroup, o, p.grouped_regroup, hs, rfl, hadds, ho⟩

/-- The only tree added to an empty arena is unfolded from its top. -/
theorem outline_of_adds_empty {ast : Ast} {o : Outline} (h : (empty source).Adds ast [o]) :
    o.ids.Perm ast.ids ∧ ast.outline o.id = o := by
  have hids : o.ids.Perm ast.ids := by
    have hp := h.ids
    rw [List.flatMap_singleton] at hp
    exact hp.symm
  have hnodup : o.ids.Nodup := hids.nodup_iff.mpr (Arena.keys_nodup _)
  exact ⟨hids, (h.shows o List.mem_cons_self).outline_eq hnodup⟩

/-- It holds all nodes. -/
theorem mem_nodes_of_adds_empty {ast : Ast} {o : Outline} (h : (empty source).Adds ast [o])
    {id : NodeId} {n : Node} (hn : ast.get? id = some n) : n ∈ o.nodes := by
  have hid := (outline_of_adds_empty h).1.mem_iff.mpr (mem_ids.mpr ⟨n, hn⟩)
  obtain ⟨m, hm, rfl⟩ := List.mem_map.mp hid
  cases ((h.shows o List.mem_cons_self).get?_of_mem hm).symm.trans hn
  exact hm

/--
Reading a source loses nothing: the tree is a program whose words, written out construct by
construct, are what the tokens of the source say, all of them in their order. The program is
grouped.
-/
theorem parse_sound {text : String} {ast : Ast} {root : NodeId}
    (h : parse .unit source text = .ok (ast, root)) :
    ∃ p : Program, ast.piece? root = some (.program p) ∧
      Spells ((Lexer.lex text.toList).map (·.token)) p.words ∧ p.grouped := by
  obtain ⟨p, o, hg, hs, rfl, hadds, ho⟩ := exists_of_ofLexemes h
  obtain ⟨-, hout⟩ := outline_of_adds_empty hadds
  exact ⟨p, by rw [piece?, hout, ho], hs, hg⟩

theorem parse_sound_method : ∃ ast root,
    parse .unit 0 "class A { int f() { return g(x).y - 1 * 2; } }" = .ok (ast, root) ∧
      ∃ p : Program, ast.piece? root = some (.program p) ∧
        Spells ((Lexer.lex "class A { int f() { return g(x).y - 1 * 2; } }".toList).map (·.token))
          p.words ∧ p.grouped := by
  have hok : (parse .unit 0 "class A { int f() { return g(x).y - 1 * 2; } }").isOk := by
    decide +kernel
  cases h : parse .unit 0 "class A { int f() { return g(x).y - 1 * 2; } }" with
  | error e =>
    rw [h] at hok
    cases hok
  | ok r => exact ⟨r.1, r.2, rfl, parse_sound h⟩

/--
Reading finds every program: tokens that spell a grouped program are read as that program, and
tokens that spell a sentence of the grammar are read as a grouped program with these words.
-/
theorem parse_complete (source length : Nat) (lexemes : List Lexeme) :
    (∀ p : Program, p.grouped → Spells (lexemes.map (·.token)) p.words →
      ∃ ast root, ofLexemes .unit source length lexemes = .ok (ast, root) ∧
        ast.piece? root = some (.program p)) ∧
    ∀ words, Derives .unit words → Spells (lexemes.map (·.token)) words →
      ∃ ast root p, ofLexemes .unit source length lexemes = .ok (ast, root) ∧
        ast.piece? root = some (.program p) ∧ p.grouped ∧ p.words = words := by
  have each : ∀ p : Program, p.grouped → Spells (lexemes.map (·.token)) p.words →
      ∃ ast root, ofLexemes .unit source length lexemes = .ok (ast, root) ∧
        ast.piece? root = some (.program p) := by
    intro p hg hs
    obtain ⟨ast, o, hok, hadds, ho⟩ := ofLexemes_of_spells source length hg hs
    obtain ⟨-, hout⟩ := outline_of_adds_empty hadds
    exact ⟨ast, o.id, hok, by rw [piece?, hout, ho]⟩
  refine ⟨each, fun words hd hs => ?_⟩
  obtain ⟨p, rfl⟩ := hd.hasTree
  have hs' : Spells (lexemes.map (·.token)) p.regroup.words := by rwa [p.words_regroup]
  obtain ⟨ast, root, hok, hp⟩ := each p.regroup p.grouped_regroup hs'
  exact ⟨ast, root, p.regroup, hok, hp, p.grouped_regroup, p.words_regroup⟩

/-- A product in a sum in a comparison, and an `else`, once as a tree and once as a sentence. -/
theorem parse_complete_ifElse : ∃ (p : Program) (lexemes : List Lexeme),
    p = ⟨[⟨"A", [.function .int "f" [] [.ifElse
      (.binary .less (.name "a") (.binary .add (.int 1) (.binary .mul (.int 2) (.int 3))))
      (.ret (some (.unary .neg (.name "b")))) (.assign (.name "x") (.paren (.name "c")))]]⟩]⟩ ∧
    lexemes = Lexer.lex
      "class A { int f() { if (a < 1 + 2 * 3) return -b; else x = (c); } }".toList ∧
    (p.grouped ∧ Spells (lexemes.map (·.token)) p.words ∧
      ∃ ast root, ofLexemes .unit 0 67 lexemes = .ok (ast, root) ∧
        ast.piece? root = some (.program p)) ∧
    Derives .unit p.words ∧
      ∃ ast root q, ofLexemes .unit 0 67 lexemes = .ok (ast, root) ∧
        ast.piece? root = some (.program q) ∧ q.grouped ∧ q.words = p.words := by
  refine ⟨_, _, rfl, rfl, ⟨by decide, by decide +kernel,
    (parse_complete 0 67 _).1 _ (by decide) (by decide +kernel)⟩, ?_⟩
  have hcond : Derives .expr (Expr.binary .less (.name "a")
      (.binary .add (.int 1) (.binary .mul (.int 2) (.int 3)))).words :=
    .binary .less (.name "a")
      (.binary .add (.intLiteral 1) (.binary .mul (.intLiteral 2) (.intLiteral 3)))
  have hbody : Derives .stmt (Stmt.ret (some (.unary .neg (.name "b")))).words :=
    .retValue (.unary .neg (.name "b"))
  have hother : Derives .stmt (Stmt.assign (.name "x") (.paren (.name "c"))).words :=
    .assign (.name "x") (.paren (.name "c"))
  have hmember : Derives .member _ := .function "f" .int (List.forall_mem_nil _)
    (.compound (List.forall_mem_singleton.mpr (.ifElse hcond hbody hother)))
  have hunit := Derives.unit (List.forall_mem_singleton.mpr
    (Derives.classDef "A" (List.forall_mem_singleton.mpr hmember)))
  exact ⟨hunit, (parse_complete 0 67 _).2 _ hunit (by decide +kernel)⟩

end FlatScope.Ast
