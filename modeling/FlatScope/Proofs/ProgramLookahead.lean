import FlatScope.Proofs.ExprLookahead

/-!
# Statements, classes and programs on token lists that begin alike

Behind the expressions every parser keeps its marks, so each is followed by the rules for its
combinators. What it reads is put together from the languages of its parts and lies in the language
of its own part.
-/

namespace FlatScope.Grammar

open FlatScope.Grammar.Parser
open scoped Computability

variable {ts ts' : List Token} {n k : Nat}

/-! ## The languages of the parts -/

/-- Only a program and a list of arguments can be empty. -/
theorem nil_notMem_phrases {part : Part} (hunit : part ≠ .unit) (hargs : part ≠ .args) :
    [] ∉ phrases part := by
  have h : ∀ ws, Derives part ws → ws ≠ [] := by
    intro ws h
    induction h with
    | unit => exact absurd rfl hunit
    | args => exact absurd rfl hargs
    | block _ ih => exact ih nofun nofun
    | _ => simp [inBraces, inParens]
  exact fun hnil => h [] hnil rfl

theorem exists_phrases (part : Part) : ∃ ws, ws ∈ phrases part := by
  have nothing : ∀ part, ∀ ws ∈ ([] : List (List Word)), Derives part ws := nofun
  have compound : Derives .compound _ := .compound (nothing _)
  cases part with
  | unit => exact ⟨_, .unit (nothing _)⟩
  | classDef => exact ⟨_, .classDef "" (nothing _)⟩
  | member => exact ⟨_, .field "" .int⟩
  | param => exact ⟨_, .param "" .int⟩
  | type => exact ⟨_, .int⟩
  | compound => exact ⟨_, compound⟩
  | stmt => exact ⟨_, .block compound⟩
  | expr => exact exists_phrases_expr
  | args => exact ⟨_, .args (nothing _)⟩

theorem compound_le :
    ({[.symbol .leftCurly]} * ((phrases .stmt)∗ * {[.symbol .rightCurly]}) : Language Word) ≤
      phrases .compound := by
  rintro _ ⟨_, rfl, _, ⟨body, hbody, _, rfl, rfl⟩, rfl⟩
  obtain ⟨stmts, rfl, hstmts⟩ := Language.mem_kstar.mp hbody
  exact .compound hstmts

/-- A list of parameters in parentheses. -/
def parameterPhrases : Language Word :=
  {ws | ∃ params, (∀ ws ∈ params, Derives .param ws) ∧ ws = inParens (separated params)}

theorem commas_le_parameterPhrases :
    ({[.symbol .leftParen]} * ((phrases .param * ({[.symbol .comma]} * phrases .param)∗ + 1) *
      {[.symbol .rightParen]}) : Language Word) ≤ parameterPhrases := by
  rintro _ ⟨_, rfl, _, ⟨params, hparams, _, rfl, rfl⟩, rfl⟩
  obtain ⟨items, rfl, hitems⟩ := exists_separated hparams
  exact ⟨items, hitems, rfl⟩

theorem exists_parameterPhrases : ∃ ws, ws ∈ parameterPhrases := ⟨_, [], nofun, rfl⟩

/-- An expression in parentheses. -/
def conditionPhrases : Language Word := {ws | ∃ cond, Derives .expr cond ∧ ws = inParens cond}

theorem exists_conditionPhrases : ∃ ws, ws ∈ conditionPhrases := ⟨_, _, .this, rfl⟩

/-! ## Types -/

theorem tracks_typeName (hts : ts.take n = ts'.take n) {σ : Type} :
    (typeName : Parser σ Ty).Tracks ts ts' n (phrases .type) k typeName := by
  have word : ∀ {x : Keyword} {ty : Ty}, Derives .type [.keyword x] →
      (do keyword x; return ty : Parser σ Ty).Tracks ts ts' n (phrases .type) k
        (do keyword x; return ty) := fun h =>
    ((tracks_keyword hts _).then_silent (fun _ => silent_pure _) fun _ => silent_pure _).mono
      (Set.singleton_subset_iff.mpr h)
  have named : names ≤ phrases .type := by
    rintro _ ⟨name, rfl⟩
    exact .named name
  refine Tracks.named (tracks_choice (List.cons_ne_nil _ _) (.cons (word .int) (.cons (word .float)
    (.cons (word .string) (.cons (word .void) (.cons ?_ .nil)))))) (exists_phrases .type) _
  exact ((tracks_identifier hts).then_silent (fun _ => silent_pure _) fun _ => silent_pure _).mono
    named

/-! ## Statements -/

namespace Stmt

section

variable (hts : ts.take n = ts'.take n) (hlacks : ∀ q < n, ¬ LacksOperand ts q)

include hts hlacks

theorem tracks_condition : condition.Tracks ts ts' n conditionPhrases k condition := by
  have hle : ({[.symbol .leftParen]} * (phrases .expr * {[.symbol .rightParen]}) :
      Language Word) ≤ conditionPhrases := by
    rintro _ ⟨_, rfl, _, ⟨cond, hcond, _, rfl, rfl⟩, rfl⟩
    exact ⟨cond, hcond, rfl⟩
  exact (Tracks.between hts (fun _ => tracks_expression hts hlacks) exists_phrases_expr).mono hle

omit hlacks in
theorem tracks_declaration : declaration.Tracks ts ts' n (phrases .stmt) k declaration := by
  have hle : phrases .type * (names * {[.symbol .semicolon]}) ≤ phrases .stmt := by
    rintro _ ⟨ty, hty, _, ⟨_, ⟨name, rfl⟩, _, rfl, rfl⟩, rfl⟩
    exact .declaration name hty
  rw [declaration_eq]
  refine Tracks.named (Tracks.position (Tracks.mono ?_ hle)) (exists_phrases .stmt) _
  refine (tracks_typeName hts).bind (fun _ _ _ _ _ => ?_) (exists_mul exists_names ⟨_, rfl⟩)
  refine (tracks_identifier hts).bind (fun _ _ _ _ _ => ?_) ⟨_, rfl⟩
  exact (tracks_symbol hts .semicolon).then_silent
    (fun _ => (silent_typeNode _ _).bind fun _ => silent_pure _)
    fun _ => (silent_typeNode _ _).bind fun _ => silent_pure _

theorem tracks_returning : returning.Tracks ts ts' n (phrases .stmt) k returning := by
  have hle : ({[.keyword .return_]} * ((phrases .expr + 1) * {[.symbol .semicolon]}) :
      Language Word) ≤ phrases .stmt := by
    rintro _ ⟨_, rfl, _, ⟨value, hvalue | rfl, _, rfl, rfl⟩, rfl⟩
    · exact .retValue hvalue
    · exact .ret
  refine Tracks.named (Tracks.mono ?_ hle) (exists_phrases .stmt) _
  refine (tracks_keyword hts .return_).bind (fun _ _ _ _ _ => ?_)
    (exists_mul ⟨[], .inr rfl⟩ ⟨_, rfl⟩)
  refine (tracks_expression hts hlacks).optional.bind (fun _ _ _ _ _ => ?_) ⟨_, rfl⟩
  exact (tracks_symbol hts .semicolon).then_silent (fun _ => silent_pure _) fun _ => silent_pure _

omit hlacks in
/-- One of the statements of a single word. -/
theorem tracks_jump {x : Keyword} (kind : NodeKind)
    (h : Derives .stmt [.keyword x, .symbol .semicolon]) :
    (do keyword x; symbol .semicolon; return kind : TreeParser NodeKind).Tracks ts ts' n
      (phrases .stmt) k (do keyword x; symbol .semicolon; return kind) := by
  have hle : ({[.keyword x]} * {[.symbol .semicolon]} : Language Word) ≤ phrases .stmt := by
    rintro _ ⟨_, rfl, _, rfl, rfl⟩
    exact h
  refine Tracks.mono ?_ hle
  refine (tracks_keyword hts x).bind (fun _ _ _ _ _ => ?_) ⟨_, rfl⟩
  exact (tracks_symbol hts .semicolon).then_silent (fun _ => silent_pure _) fun _ => silent_pure _

theorem tracks_printing : printing.Tracks ts ts' n (phrases .stmt) k printing := by
  have hle : ({[.keyword .print]} * (conditionPhrases * {[.symbol .semicolon]}) :
      Language Word) ≤ phrases .stmt := by
    rintro _ ⟨_, rfl, _, ⟨_, ⟨value, hvalue, rfl⟩, _, rfl, rfl⟩, rfl⟩
    exact .print hvalue
  refine Tracks.named (Tracks.mono ?_ hle) (exists_phrases .stmt) _
  refine (tracks_keyword hts .print).bind (fun _ _ _ _ _ => ?_)
    (exists_mul exists_conditionPhrases ⟨_, rfl⟩)
  refine (tracks_condition hts hlacks).bind (fun _ _ _ _ _ => ?_) ⟨_, rfl⟩
  exact (tracks_symbol hts .semicolon).then_silent (fun _ => silent_pure _) fun _ => silent_pure _

theorem tracks_evaluation : evaluation.Tracks ts ts' n (phrases .stmt) k evaluation := by
  have hle : (phrases .expr * (({[.symbol .assign]} * phrases .expr + 1) *
      {[.symbol .semicolon]}) : Language Word) ≤ phrases .stmt := by
    rintro _ ⟨target, htarget, _, ⟨_, ⟨_, rfl, value, hvalue, rfl⟩ | rfl, _, rfl, rfl⟩, rfl⟩
    · show Derives .stmt _
      simpa using Derives.assign htarget hvalue
    · exact .eval htarget
  refine Tracks.mono ?_ hle
  refine (tracks_expression hts hlacks).bind (fun _ _ _ _ _ => ?_)
    (exists_mul ⟨[], .inr rfl⟩ ⟨_, rfl⟩)
  refine Tracks.bind (Tracks.optional ((tracks_symbol hts .assign).bind
    (fun _ _ _ _ _ => tracks_expression hts hlacks) exists_phrases_expr))
    (fun value value' _ _ _ => ?_) ⟨_, rfl⟩
  exact (tracks_symbol hts .semicolon).then_silent
    (fun _ => by cases value <;> exact silent_pure _)
    fun _ => by cases value' <;> exact silent_pure _

variable {stmt stmt' : TreeParser NodeId}
  (hS : ∀ m, k < m → stmt.Tracks ts ts' n (phrases .stmt) m stmt')

include hS

omit hlacks in
theorem tracks_block : (block stmt).Tracks ts ts' n (phrases .stmt) k (block stmt') := by
  have hle : phrases .compound ≤ phrases .stmt := fun _ h => .block h
  refine Tracks.named (Tracks.position ?_) (exists_phrases .stmt) _
  refine Tracks.then_silent (Tracks.mono (Tracks.between hts (fun _ => ?_) ⟨[],
    Language.nil_mem_kstar _⟩) (compound_le.trans hle))
    (fun _ => (silent_build _).bind fun _ => silent_pure _)
    fun _ => (silent_build _).bind fun _ => silent_pure _
  exact Tracks.many hts (fun m hm => hS m (by omega)) (nil_notMem_phrases nofun nofun)

theorem tracks_conditional :
    (conditional stmt).Tracks ts ts' n (phrases .stmt) k (conditional stmt') := by
  have hle : ({[.keyword .if_]} * (conditionPhrases * (phrases .stmt *
      ({[.keyword .else_]} * phrases .stmt + 1))) : Language Word) ≤ phrases .stmt := by
    rintro _ ⟨_, rfl, _, ⟨_, ⟨cond, hcond, rfl⟩, _,
      ⟨body, hbody, _, ⟨_, rfl, other, hother, rfl⟩ | rfl, rfl⟩, rfl⟩, rfl⟩
    · show Derives .stmt _
      simpa using Derives.ifElse hcond hbody hother
    · show Derives .stmt _
      simpa using Derives.ifThen hcond hbody
  have helse : ∀ m, k < m → (do keyword .else_; stmt : TreeParser NodeId).Tracks ts ts' n
      ({[.keyword .else_]} * phrases .stmt) m (do keyword .else_; stmt') := fun m hm =>
    (tracks_keyword hts .else_).bind (fun _ _ _ _ _ => hS _ (by omega)) (exists_phrases .stmt)
  refine Tracks.named (Tracks.mono ?_ hle) (exists_phrases .stmt) _
  refine (tracks_keyword hts .if_).bind (fun _ _ us hus _ => ?_) (exists_mul
    exists_conditionPhrases (exists_mul (exists_phrases .stmt) ⟨[], .inr rfl⟩))
  obtain rfl := hus
  refine (tracks_condition hts hlacks).bind (fun _ _ _ _ _ => ?_)
    (exists_mul (exists_phrases .stmt) ⟨[], .inr rfl⟩)
  refine (hS _ (by simp; omega)).bind (fun _ _ _ _ _ => ?_) ⟨[], .inr rfl⟩
  exact (helse _ (by simp; omega)).optional.then_silent
    (Option.forall.mpr ⟨silent_pure _, fun _ => silent_pure _⟩)
    (Option.forall.mpr ⟨silent_pure _, fun _ => silent_pure _⟩)

theorem tracks_loop : (loop stmt).Tracks ts ts' n (phrases .stmt) k (loop stmt') := by
  have hle : ({[.keyword .while_]} * (conditionPhrases * phrases .stmt) : Language Word) ≤
      phrases .stmt := by
    rintro _ ⟨_, rfl, _, ⟨_, ⟨cond, hcond, rfl⟩, body, hbody, rfl⟩, rfl⟩
    show Derives .stmt _
    simpa using Derives.whileDo hcond hbody
  refine Tracks.named (Tracks.mono ?_ hle) (exists_phrases .stmt) _
  refine (tracks_keyword hts .while_).bind (fun _ _ us hus _ => ?_)
    (exists_mul exists_conditionPhrases (exists_phrases .stmt))
  obtain rfl := hus
  refine (tracks_condition hts hlacks).bind (fun _ _ _ _ _ => ?_) (exists_phrases .stmt)
  exact (hS _ (by simp; omega)).then_silent (fun _ => silent_pure _) fun _ => silent_pure _

/-- One more level, given the statements inside. -/
theorem tracks_statementWith :
    (statementWith stmt).Tracks ts ts' n (phrases .stmt) k (statementWith stmt') := by
  refine Tracks.named (Tracks.position (Tracks.then_silent (tracks_choice (List.cons_ne_nil _ _) ?_)
    (fun _ => silent_build _) fun _ => silent_build _)) (exists_phrases .stmt) _
  exact .cons (tracks_block hts hS) (.cons (tracks_declaration hts)
    (.cons (tracks_conditional hts hlacks hS) (.cons (tracks_loop hts hlacks hS)
    (.cons (tracks_returning hts hlacks) (.cons (tracks_jump hts _ .brk)
    (.cons (tracks_jump hts _ .cont) (.cons (tracks_printing hts hlacks)
    (.cons (tracks_evaluation hts hlacks) .nil))))))))

end

/-- On one token list alone nothing needs to be followed. -/
theorem reports_statementWithin (fuel : Nat) : ∀ k, ts.length < k + fuel →
    (statementWithin fuel).Reports ts True (phrases .stmt) k := by
  induction fuel with
  | zero =>
    intro k hlt hw
    have := hw.1
    omega
  | succ fuel ih =>
    intro k hlt
    have inside : ∀ m, k < m → (statementWithin fuel).Tracks ts ts 0 (phrases .stmt) m
        (statementWithin fuel) := fun m hm => ⟨ih m (by omega), fun _ h => by omega⟩
    exact (tracks_statementWith rfl (fun _ h => absurd h (Nat.not_lt_zero _)) inside).reports

theorem tracks_statementWithin (hts : ts.take n = ts'.take n)
    (hlacks : ∀ q < n, ¬ LacksOperand ts q) (fuel : Nat) : ∀ fuel' k, ts.length < k + fuel →
      ts'.length < k + fuel' →
      (statementWithin fuel).Tracks ts ts' n (phrases .stmt) k (statementWithin fuel') := by
  induction fuel with
  | zero =>
    intro _ k hlt _
    refine ⟨reports_statementWithin 0 k hlt, fun hw => ?_⟩
    have := hw.1
    omega
  | succ fuel ih =>
    intro fuel' k hlt hlt'
    refine ⟨reports_statementWithin (fuel + 1) k hlt, fun hw hk => ?_⟩
    have hle := length_of_take hts hk hw.1
    obtain ⟨fuel', rfl⟩ : ∃ l, fuel' = l + 1 := ⟨fuel' - 1, by omega⟩
    exact (tracks_statementWith hts hlacks
      fun m hm => ih fuel' m (by omega) (by omega)).meets hw hk

end Stmt

/-! ## Classes -/

section

variable (hts : ts.take n = ts'.take n) (hlacks : ∀ q < n, ¬ LacksOperand ts q)

include hts hlacks

theorem tracks_statement : statement.Tracks ts ts' n (phrases .stmt) k statement where
  reports hw s := Stmt.reports_statementWithin ((place ts k).rest.length + 1) k
    (by rw [place_rest_length]; omega) hw s
  meets hw hk s s' := (Stmt.tracks_statementWithin hts hlacks ((place ts k).rest.length + 1)
    ((place ts' k).rest.length + 1) k (by rw [place_rest_length]; omega)
    (by rw [place_rest_length]; omega)).meets hw hk s s'

theorem tracks_compound : compound.Tracks ts ts' n (phrases .compound) k compound := by
  refine Tracks.named (Tracks.position (Tracks.mono ?_ compound_le)) (exists_phrases .compound) _
  refine (tracks_symbol hts .leftCurly).bind (fun _ _ _ _ _ => ?_)
    (exists_mul ⟨[], Language.nil_mem_kstar _⟩ ⟨_, rfl⟩)
  refine (Tracks.many hts (fun _ _ => tracks_statement hts hlacks)
    (nil_notMem_phrases nofun nofun)).bind (fun _ _ _ _ _ => ?_) ⟨_, rfl⟩
  exact (tracks_symbol hts .rightCurly).then_silent
    (fun _ => (silent_build _).bind fun _ => silent_build _)
    fun _ => (silent_build _).bind fun _ => silent_build _

omit hlacks in
theorem tracks_parameter : parameter.Tracks ts ts' n (phrases .param) k parameter := by
  have hle : phrases .type * names ≤ phrases .param := by
    rintro _ ⟨ty, hty, _, ⟨name, rfl⟩, rfl⟩
    exact .param name hty
  rw [parameter_eq]
  refine Tracks.named (Tracks.position (Tracks.mono ?_ hle)) (exists_phrases .param) _
  refine (tracks_typeName hts).bind (fun _ _ _ _ _ => ?_) exists_names
  exact (tracks_identifier hts).then_silent
    (fun _ => (silent_typeNode _ _).bind fun _ => silent_build _)
    fun _ => (silent_typeNode _ _).bind fun _ => silent_build _

omit hlacks in
theorem tracks_parameters : parameters.Tracks ts ts' n parameterPhrases k parameters := by
  refine Tracks.named (Tracks.position (Tracks.then_silent (Tracks.mono (Tracks.between hts
    (fun _ => ?_) ⟨[], .inr rfl⟩) commas_le_parameterPhrases) (fun _ => silent_build _)
    fun _ => silent_build _)) exists_parameterPhrases _
  exact Tracks.separatedBy hts (fun _ _ => tracks_parameter hts) (exists_phrases .param)
    (fun _ => tracks_symbol hts .comma) (nil_notMem_word _)

theorem tracks_memberEnd : memberEnd.Tracks ts ts' n
    ({[.symbol .semicolon]} + parameterPhrases * phrases .compound) k memberEnd := by
  refine tracks_choice (List.cons_ne_nil _ _) (.cons (Tracks.mono ?_ le_self_add)
    (.cons (Tracks.mono ?_ le_add_self) .nil))
  · exact (tracks_symbol hts .semicolon).then_silent (fun _ => silent_pure _)
      fun _ => silent_pure _
  · refine (tracks_parameters hts).bind (fun _ _ _ _ _ => ?_) (exists_phrases .compound)
    exact (tracks_compound hts hlacks).then_silent (fun _ => silent_pure _) fun _ => silent_pure _

theorem tracks_member : member.Tracks ts ts' n (phrases .member) k member := by
  have hle : phrases .type * (names * ({[.symbol .semicolon]} +
      parameterPhrases * phrases .compound)) ≤ phrases .member := by
    rintro _ ⟨ty, hty, _, ⟨_, ⟨name, rfl⟩, _,
      rfl | ⟨_, ⟨params, hparams, rfl⟩, body, hbody, rfl⟩, rfl⟩, rfl⟩
    · exact .field name hty
    · show Derives .member _
      simpa using Derives.function name hty hparams hbody
  rw [member_eq]
  refine Tracks.named (Tracks.position (Tracks.mono ?_ hle)) (exists_phrases .member) _
  refine (tracks_typeName hts).bind (fun _ _ _ _ _ => ?_) (exists_mul exists_names ⟨_, .inl rfl⟩)
  refine (tracks_identifier hts).bind (fun _ _ _ _ _ => ?_) ⟨_, .inl rfl⟩
  exact (tracks_memberEnd hts hlacks).then_silent
    (fun rest => (silent_typeNode _ _).bind fun _ => by cases rest <;> exact silent_build _)
    fun rest => (silent_typeNode _ _).bind fun _ => by cases rest <;> exact silent_build _

theorem tracks_classDecl : classDecl.Tracks ts ts' n (phrases .classDef) k classDecl := by
  have hle : ({[.keyword .class_]} * (names * ({[.symbol .leftCurly]} * ((phrases .member)∗ *
      {[.symbol .rightCurly]}))) : Language Word) ≤ phrases .classDef := by
    rintro _ ⟨_, rfl, _, ⟨_, ⟨name, rfl⟩, _, ⟨_, rfl, _, ⟨body, hbody, _, rfl, rfl⟩, rfl⟩, rfl⟩,
      rfl⟩
    obtain ⟨members, rfl, hmembers⟩ := Language.mem_kstar.mp hbody
    exact .classDef name hmembers
  have hmembers : ∃ ws, ws ∈ (phrases .member)∗ := ⟨[], Language.nil_mem_kstar _⟩
  refine Tracks.named (Tracks.position (Tracks.mono ?_ hle)) (exists_phrases .classDef) _
  refine (tracks_keyword hts .class_).bind (fun _ _ _ _ _ => ?_)
    (exists_mul exists_names (exists_mul ⟨_, rfl⟩ (exists_mul hmembers ⟨_, rfl⟩)))
  refine (tracks_identifier hts).bind (fun _ _ _ _ _ => ?_)
    (exists_mul ⟨_, rfl⟩ (exists_mul hmembers ⟨_, rfl⟩))
  refine (Tracks.between hts (fun _ => Tracks.position ?_) hmembers).then_silent
    (fun _ => silent_build _) fun _ => silent_build _
  exact (Tracks.many hts (fun _ _ => tracks_member hts hlacks)
    (nil_notMem_phrases nofun nofun)).then_silent (fun _ => silent_build _) fun _ => silent_build _

end

end FlatScope.Grammar
