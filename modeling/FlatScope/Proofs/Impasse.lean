import FlatScope.Proofs.Parsing
import FlatScope.Proofs.ProgramLookahead

/-!
# Where syntax errors point

A token list comes to an impasse at the first token that no program can have there. No error points
behind it, for all that an error expects can stand where the error is (`Failure.Justified`). To see
that no error points in front of it, a program that shares the tokens up to the error and one more
is read next to the rejected text: the marks left past the common tokens are lost only if a prefix
operator lacks its operand, for then the operator is tried as an atom, and that forgets them.
-/

namespace FlatScope

/-- Token number `d` is the first that no program can have there, or all tokens can go on. -/
structure Impasse (tokens : List Token) (d : Nat) : Prop where
  le : d ≤ tokens.length
  viable : Viable (tokens.take d)
  stuck : d < tokens.length → ¬ Viable (tokens.take (d + 1))

theorem viable_nil : Viable [] := by
  have hunit : Derives .unit [].flatten := .unit nofun
  exact ⟨[], [], hunit, rfl⟩

theorem Impasse.le_of_viable {tokens : List Token} {d k : Nat} (h : Impasse tokens d)
    (hk : k ≤ tokens.length) (hv : Viable (tokens.take k)) : k ≤ d := by
  by_contra hlt
  refine h.stuck (by omega) ?_
  have := hv.take (d + 1)
  rwa [List.take_take, Nat.min_eq_left (by omega)] at this

theorem existsUnique_impasse (tokens : List Token) : ∃! d, Impasse tokens d := by
  classical
  have hzero : Viable (tokens.take 0) := viable_nil
  refine ⟨Nat.findGreatest (fun k => Viable (tokens.take k)) tokens.length, ?_, ?_⟩
  · exact
      { le := Nat.findGreatest_le _
        viable := Nat.findGreatest_spec (P := fun k => Viable (tokens.take k)) (Nat.zero_le _) hzero
        stuck := fun hlt => Nat.findGreatest_is_greatest (Nat.lt_succ_self _) hlt }
  · intro d h
    refine Nat.le_antisymm (Nat.le_findGreatest h.le h.viable) ?_
    exact h.le_of_viable (Nat.findGreatest_le _)
      (Nat.findGreatest_spec (P := fun k => Viable (tokens.take k)) (Nat.zero_le _) hzero)

namespace Grammar

open FlatScope.Grammar.Parser
open scoped Computability

variable {ts ts' : List Token} {n m : Nat} {b b' : Builder}

/-! ## A whole program -/

theorem endOfInput_place {σ : Type} (ts : List Token) (m : Nat) (s : σ) :
    endOfInput (place ts m) s =
      if m < ts.length then ⟨none, s, fun g => g.miss m .endOfInput ts[m]?⟩
      else ⟨some ((), place ts m), s, id⟩ := by
  split
  · next hm => simp only [endOfInput, place, List.drop_eq_getElem_cons hm,
      List.getElem?_eq_getElem hm]
  · next hm => simp only [endOfInput, place, List.drop_eq_nil_of_le (Nat.le_of_not_lt hm)]

theorem welcome_classes : Welcome ts ((phrases .classDef)∗) 0 := by
  refine ⟨Nat.zero_le _, fun ws hws => ?_⟩
  obtain ⟨classes, rfl, hclasses⟩ := Language.mem_kstar.mp hws
  exact ⟨[], [], rfl, by simpa using Derives.unit hclasses⟩

theorem tracks_classes (hts : ts.take n = ts'.take n) (hlacks : ∀ q < n, ¬ LacksOperand ts q) :
    (many classDecl).Tracks ts ts' n ((phrases .classDef)∗) 0 (many classDecl) :=
  Tracks.many hts (fun _ _ => tracks_classDecl hts hlacks) (nil_notMem_phrases nofun nofun)

theorem reports_classes : (many classDecl).Reports ts True ((phrases .classDef)∗) 0 := by
  have alone : (many classDecl).Tracks ts ts 0 ((phrases .classDef)∗) 0 (many classDecl) :=
    tracks_classes rfl fun _ h => absurd h (Nat.not_lt_zero _)
  exact alone.reports

/-- A program is not read if its classes are not, or if something stands behind them. -/
theorem unit_cases (h : (unit (place ts 0) b).result = none) :
    ((many classDecl (place ts 0) b).result = none ∧
      (unit (place ts 0) b).note = (many classDecl (place ts 0) b).note) ∨
    ∃ a m us, (many classDecl (place ts 0) b).result = some (a, place ts m) ∧ m < ts.length ∧
      Derives .unit us ∧ Spells (ts.take m) us ∧ ∀ g, (unit (place ts 0) b).note g =
        ((many classDecl (place ts 0) b).note g).miss m .endOfInput ts[m]? := by
  have hunit : unit (place ts 0) b = (many classDecl >>= fun classes => do
      endOfInput; node 0 (.compUnit classes)) (place ts 0) b := rfl
  cases hr : (many classDecl (place ts 0) b).result with
  | none =>
    refine .inl ⟨rfl, ?_⟩
    rw [hunit, bind_of_none hr]
  | some r =>
    obtain ⟨a, j⟩ := r
    obtain ⟨us, hus, hs⟩ := (reports_classes welcome_classes b).lands a j hr
    obtain ⟨classes, rfl, hclasses⟩ := Language.mem_kstar.mp hus
    have hj := hs.eq_place
    rw [Nat.zero_add] at hj
    rw [hj] at hs hr
    rw [hunit, bind_of_some hr] at h ⊢
    have hend := endOfInput_place ts classes.flatten.length (many classDecl (place ts 0) b).state
    split at hend
    · next hm =>
      refine .inr ⟨a, _, _, by rw [hj], hm, .unit hclasses, ?_, fun g => ?_⟩
      · have hnil : Spells (ts.take 0) [] := rfl
        simpa using hs.spells_take hnil
      · rw [bind_of_none (by rw [hend]), hend]
        rfl
    · rw [bind_of_some (by rw [hend])] at h
      cases h

/-- What the record says of a rejected program is justified. -/
theorem unit_justified (h : (unit (place ts 0) b).result = none) :
    ∃ f, (unit (place ts 0) b).note none = some f ∧ f.Justified ts := by
  have classes : (many classDecl (place ts 0) b).Reports ts True _ 0 :=
    reports_classes welcome_classes b
  have hjust : ((unit (place ts 0) b).note none).Justified ts ∧
      ((unit (place ts 0) b).note none).Past 0 := by
    rcases unit_cases h with ⟨hr, hnote⟩ | ⟨a, m, us, -, hm, hd, hs, hnote⟩
    · rw [hnote]
      exact ⟨classes.reports none Furthest.justified_none, classes.marks hr none⟩
    · rw [hnote]
      exact ⟨(classes.reports none Furthest.justified_none).miss hm.le ⟨us, hd, hs⟩,
        Furthest.past_miss.mono (Nat.zero_le m)⟩
  obtain ⟨hjust, f, hf, -⟩ := hjust
  exact ⟨f, hf, hjust f hf⟩

/-- A rejected program is rejected past the tokens that it shares with an accepted one. -/
theorem unit_past (hts : ts.take n = ts'.take n) (hlacks : ∀ q < n, ¬ LacksOperand ts q)
    (hn : n ≤ ts.length) (h : (unit (place ts 0) b).result = none)
    (h' : (unit (place ts' 0) b').result ≠ none) (g : Furthest) :
    ((unit (place ts 0) b).note g).Past n := by
  have hmeets := (tracks_classes hts hlacks).meets welcome_classes (Nat.zero_le n) b b'
  rcases unit_cases h with ⟨hr, hnote⟩ | ⟨a, m, us, hr, hm, -, -, hnote⟩
  · rw [hnote]
    cases hmeets with
    | inStep hstep =>
      cases hstep with
      | fail _ hr' =>
        refine absurd ?_ h'
        show ((many classDecl >>= _) (place ts' 0) b').result = none
        rw [bind_of_none hr']
      | read hr' => exact absurd (hr.symm.trans hr') nofun
    | past hfail => exact hfail hr g
  · rw [hnote]
    cases hmeets with
    | inStep hstep =>
      cases hstep with
      | fail hr' => exact absurd (hr'.symm.trans hr) nofun
      | @read a₁ a' l hr₁ hr' hl =>
        obtain rfl : m = l := Outcome.pos_eq_of_result hr hr₁
        -- if the classes ended among the common tokens, something would stand behind them there too
        refine Furthest.past_miss.mono (Nat.le_of_not_lt fun hlt => h' ?_)
        have hlt' : m < ts'.length := by
          have := length_of_take hts (Nat.le_refl n) hn
          omega
        show ((many classDecl >>= _) (place ts' 0) b').result = none
        rw [bind_of_some hr']
        have hend := endOfInput_place ts' m (many classDecl (place ts' 0) b').state
        rw [if_pos hlt'] at hend
        show ((endOfInput >>= _) _ _).result = none
        rw [bind_of_none (by rw [hend])]
    | past _ hread =>
      rcases hread a m hr with hlt | ⟨-, hpast⟩
      · exact Furthest.past_miss.mono hlt.le
      · exact (hpast g).miss

/-- Tokens that can go on begin a program that is read. -/
theorem exists_read_of_viable {tokens : List Token} (h : Viable tokens) :
    ∃ rest b, (unit (place (tokens ++ rest) 0) b).result ≠ none := by
  obtain ⟨rest, words, hd, hs⟩ := h
  obtain ⟨p, rfl⟩ := hd.hasTree
  have hspans : Spans (place (tokens ++ rest) 0) p.regroup.words
      ⟨0 + (tokens ++ rest).length, []⟩ :=
    spans_iff_spells.mpr ⟨by rwa [p.words_regroup], rfl⟩
  obtain ⟨o, c, hr, -⟩ := builds_unit p.grouped_regroup hspans rfl ⟨#[], 0, .empty 0⟩ rfl
  exact ⟨rest, _, fun hnone => nomatch hnone.symm.trans hr.1⟩

/-- The record of a rejected program is at the impasse, or a prefix operator in front of it lacks
its operand. -/
theorem unit_at_impasse {d : Nat} (himpasse : Impasse ts d)
    (h : (unit (place ts 0) b).result = none) :
    ∃ f, (unit (place ts 0) b).note none = some f ∧ f.Justified ts ∧ f.pos ≤ d ∧
      (f.pos = d ∨ ∃ q ≤ f.pos, q < d ∧ LacksOperand ts q) := by
  obtain ⟨f, hf, hjust⟩ := unit_justified h
  have hle : f.pos ≤ d := himpasse.le_of_viable hjust.1 hjust.viable
  refine ⟨f, hf, hjust, hle, ?_⟩
  rcases Nat.lt_or_eq_of_le hle with hlt | heq
  · by_contra hnot
    have hlacks : ∀ q < f.pos + 1, ¬ LacksOperand ts q := fun q hq hl =>
      hnot (.inr ⟨q, by omega, by omega, hl⟩)
    have hviable : Viable (ts.take (f.pos + 1)) := by
      have := himpasse.viable.take (f.pos + 1)
      rwa [List.take_take, Nat.min_eq_left hlt] at this
    have hlength : f.pos + 1 ≤ ts.length := Nat.le_trans hlt himpasse.le
    obtain ⟨rest, b', h'⟩ := exists_read_of_viable hviable
    have hts : ts.take (f.pos + 1) = (ts.take (f.pos + 1) ++ rest).take (f.pos + 1) := by
      rw [List.take_append_of_le_length (by simp; omega), List.take_take, Nat.min_self]
    obtain ⟨f', hf', hpos⟩ := unit_past hts hlacks hlength h h' none
    rw [hf] at hf'
    cases hf'
    omega
  · exact .inl heq

theorem run_of_none {σ α : Type} {p : Parser σ α} {s : σ} (h : (p (place ts 0) s).result = none) :
    p.run ts s = .error ((p (place ts 0) s).note none) := by
  have hwhole : (do let a ← p; endOfInput; return a : Parser σ α) (place ts 0) s =
      ⟨none, (p (place ts 0) s).state, (p (place ts 0) s).note⟩ := bind_of_none h
  unfold run
  rw [show (⟨0, ts⟩ : Input) = place ts 0 from rfl, hwhole]

/-- A program is rejected with the record of its parser. -/
theorem run_unit_error {g : Furthest} (h : (entry .unit).run ts b = .error g) :
    (unit (place ts 0) b).result = none ∧ g = (unit (place ts 0) b).note none := by
  have hnone : (unit (place ts 0) b).result = none := by
    by_contra hsome
    obtain ⟨⟨a, j⟩, hr⟩ := Option.ne_none_iff_exists'.mp hsome
    have hreads : unit.Reads (place ts 0) b a j _ := ⟨hr, rfl⟩
    have hrest : j.rest = [] := by
      simp only [unit, reads_bind, reads_position, reads_endOfInput] at hreads
      obtain ⟨_, _, _, -, _, _, _, -, _, _, _, ⟨hrest, rfl, -⟩, hnode⟩ := hreads
      exact eq_of_reads_node hnode ▸ hrest
    obtain ⟨l, rest⟩ := j
    obtain rfl : rest = [] := hrest
    have hok : (entry .unit).run ts b = .ok (a, _) := run_eq_ok.mpr ⟨l, hreads⟩
    rw [h] at hok
    cases hok
  rw [entry, run_of_none hnone] at h
  exact ⟨hnone, (Except.error.inj h).symm⟩

end Grammar

/-! ## A source text -/

open Grammar

/-- The error stands on token number `pos` or at the end of the text, and is justified there. -/
structure SyntaxError.PointsAt (e : SyntaxError) (source : Nat) (text : String) (pos : Nat) :
    Prop where
  onToken : ∀ l, (Lexer.lex text.toList)[pos]? = some l → e.loc = ⟨source, l.start, l.stop⟩
  atEnd : (Lexer.lex text.toList).length ≤ pos →
    e.loc = ⟨source, text.utf8ByteSize, text.utf8ByteSize⟩
  justified : Failure.Justified ((Lexer.lex text.toList).map (·.token)) ⟨pos, e.cause⟩

theorem SyntaxError.ofFailure_pointsAt {source : Nat} {text : String} {f : Failure}
    (h : f.Justified ((Lexer.lex text.toList).map (·.token))) :
    (SyntaxError.ofFailure source text.utf8ByteSize (Lexer.lex text.toList) f).PointsAt source text
      f.pos := by
  unfold SyntaxError.ofFailure
  split
  · next l hl =>
    refine ⟨fun l' hl' => ?_, fun hle => ?_, h⟩
    · cases hl.symm.trans hl'
      rfl
    · rw [List.getElem?_eq_none hle] at hl
      cases hl
  · next hnone =>
    refine ⟨fun l hl => ?_, fun _ => rfl, h⟩
    cases hnone.symm.trans hl

namespace Ast

/--
A rejected text is rejected at its impasse or in front of it, with a cause that is justified there;
in front of it only behind a prefix operator that lacks its operand, itself in front of the impasse.
-/
theorem parse_error_at_impasse {source : Nat} {text : String} {e : SyntaxError}
    (h : parse .unit source text = .error e) :
    ∃ d pos, Impasse ((Lexer.lex text.toList).map (·.token)) d ∧ e.PointsAt source text pos ∧
      pos ≤ d ∧ (pos = d ∨
        ∃ q ≤ pos, q < d ∧ LacksOperand ((Lexer.lex text.toList).map (·.token)) q) := by
  obtain ⟨d, himpasse, -⟩ := existsUnique_impasse ((Lexer.lex text.toList).map (·.token))
  unfold parse ofLexemes at h
  dsimp only at h
  split at h
  · cases h
  · next furthest hrun =>
    obtain ⟨hnone, rfl⟩ := run_unit_error hrun
    obtain ⟨f, hf, hjust, hle, hat⟩ := unit_at_impasse himpasse hnone
    rw [hf] at h
    cases h
    exact ⟨d, f.pos, himpasse, SyntaxError.ofFailure_pointsAt hjust, hle, hat⟩

theorem parse_error_at_impasse_parameter : ∃ e,
    parse .unit 0 "class A { int f(int) {} }" = .error e ∧
      ∃ d pos, Impasse ((Lexer.lex "class A { int f(int) {} }".toList).map (·.token)) d ∧
        e.PointsAt 0 "class A { int f(int) {} }" pos ∧ pos ≤ d ∧ (pos = d ∨
          ∃ q ≤ pos, q < d ∧
            LacksOperand ((Lexer.lex "class A { int f(int) {} }".toList).map (·.token)) q) := by
  have herror : (parse .unit 0 "class A { int f(int) {} }").isOk = false := by decide +kernel
  cases h : parse .unit 0 "class A { int f(int) {} }" with
  | ok r =>
    rw [h] at herror
    cases herror
  | error e => exact ⟨e, rfl, parse_error_at_impasse h⟩

/-- The body of a function may begin with a minus sign. -/
theorem viable_minus : Viable [.keyword .class_, .identifier "A", .symbol .leftCurly,
    .keyword .void, .identifier "f", .symbol .leftParen, .symbol .rightParen, .symbol .leftCurly,
    .symbol .minus] := by
  have hstmt : Derives .stmt [.symbol .minus, .keyword .this, .symbol .semicolon] :=
    .eval (.unary .neg .this)
  have hmember : Derives .member ([.keyword .void] ++ .name "f" :: inParens (separated []) ++ _) :=
    .function "f" .void nofun (.compound (List.forall_mem_singleton.mpr hstmt))
  have hclass := Derives.classDef "A" (List.forall_mem_singleton.mpr hmember)
  have hunit := Derives.unit (List.forall_mem_singleton.mpr hclass)
  exact ⟨[.keyword .this, .symbol .semicolon, .symbol .rightCurly, .symbol .rightCurly], _, hunit,
    rfl⟩

/-- The error is put on a minus sign that can stand there, in front of what cannot. -/
theorem not_forall_error_at_impasse : ¬ ∀ source text e, parse .unit source text = .error e →
    ∃ d, Impasse ((Lexer.lex text.toList).map (·.token)) d ∧ e.PointsAt source text d := by
  intro h
  have hlex : Lexer.lex "class A { void f() { -; } }".toList =
      [⟨.keyword .class_, 0, 5⟩, ⟨.identifier "A", 6, 7⟩, ⟨.symbol .leftCurly, 8, 9⟩,
        ⟨.keyword .void, 10, 14⟩, ⟨.identifier "f", 15, 16⟩, ⟨.symbol .leftParen, 16, 17⟩,
        ⟨.symbol .rightParen, 17, 18⟩, ⟨.symbol .leftCurly, 19, 20⟩, ⟨.symbol .minus, 21, 22⟩,
        ⟨.symbol .semicolon, 22, 23⟩, ⟨.symbol .rightCurly, 24, 25⟩,
        ⟨.symbol .rightCurly, 26, 27⟩] := by decide +kernel
  have herror : (match parse .unit 0 "class A { void f() { -; } }" with
      | .ok _ => false
      | .error e => e.loc.start = 21) = true := by decide +kernel
  cases hparse : parse .unit 0 "class A { void f() { -; } }" with
  | ok r =>
    rw [hparse] at herror
    cases herror
  | error e =>
    obtain ⟨d, himpasse, honToken, hatEnd, -⟩ := h 0 _ e hparse
    rw [hlex] at himpasse honToken hatEnd
    have hd : 9 ≤ d := himpasse.le_of_viable (by decide) viable_minus
    have hle : d ≤ 12 := himpasse.le
    have hplace : ∀ start stop, e.loc = ⟨0, start, stop⟩ → start = 21 := by
      rintro start stop heq
      rw [hparse] at herror
      simpa [heq] using herror
    obtain rfl | rfl | rfl | rfl : d = 9 ∨ d = 10 ∨ d = 11 ∨ d = 12 := by omega
    · exact absurd (hplace _ _ (honToken _ rfl)) (by decide)
    · exact absurd (hplace _ _ (honToken _ rfl)) (by decide)
    · exact absurd (hplace _ _ (honToken _ rfl)) (by decide)
    · exact absurd (hplace _ _ (hatEnd (by decide))) (by decide)

end Ast

end FlatScope
