import FlatScope.Grammar.Stmt
import FlatScope.Proofs.Soundness

/-!
# Where nothing is read

A parser of the grammar refuses a place by its next token, before it builds anything: an expression
needs a token it can start with (`Token.startsExpr`), a statement one of its keywords, a block, a
type or an expression.
-/

namespace FlatScope

/-- An expression can start with this token. -/
def Token.startsExpr : Token → Bool
  | .int _ | .float _ | .string _ | .identifier _ => true
  | .symbol .leftParen | .symbol .bang | .symbol .minus => true
  | .keyword .new | .keyword .null | .keyword .this => true
  | _ => false

/-- A type can start with this token; every type is a single token. -/
def Token.startsType : Token → Bool
  | .keyword .int | .keyword .float | .keyword .string | .keyword .void | .identifier _ => true
  | _ => false

/-- Literals that stand for themselves, all but strings. -/
def Token.isLiteral : Token → Bool
  | .int _ | .float _ | .keyword .null | .keyword .this => true
  | _ => false

namespace Grammar

open FlatScope.Grammar.Parser

variable {σ : Type} {i j : Input} {s : σ}

/-- The next token, if there is one, is none of these. -/
def Input.Lacks (i : Input) (start : Token → Bool) : Prop :=
  ∀ t, i.next? = some t → start t = false

theorem Input.lacks_of_next {start : Token → Bool} {t : Token} (h : i.next? = some t)
    (ht : start t = false) : i.Lacks start := by
  intro u hu
  rw [h] at hu
  cases hu
  exact ht

theorem Input.Takes.lacks {start : Token → Bool} {t : Token} (h : i.Takes t j)
    (ht : start t = false) : i.Lacks start := Input.lacks_of_next h.next? ht

theorem Input.Lacks.next_ne {start : Token → Bool} (h : i.Lacks start) {t : Token}
    (ht : start t = true) : i.next? ≠ some t := by
  intro eq
  have := h t eq
  rw [ht] at this
  cases this

theorem refuses_identifier (h : ∀ name, i.next? ≠ some (.identifier name)) :
    (identifier : Parser σ String).Refuses i := by
  refine refuses_satisfy fun t ht => ?_
  cases t with
  | identifier name => exact absurd ht (h name)
  | _ => rfl

theorem refuses_typeName (h : i.Lacks Token.startsType) :
    (typeName : Parser σ Ty).Refuses i := by
  refine refuses_choice fun p hp => ?_
  simp only [List.mem_cons, List.not_mem_nil, or_false] at hp
  rcases hp with rfl | rfl | rfl | rfl | rfl
  · exact (refuses_keyword (h.next_ne rfl)).bind _
  · exact (refuses_keyword (h.next_ne rfl)).bind _
  · exact (refuses_keyword (h.next_ne rfl)).bind _
  · exact (refuses_keyword (h.next_ne rfl)).bind _
  · exact (refuses_identifier fun name => h.next_ne rfl).bind _

/-- A type that stands there is read. -/
theorem reads_typeName {ty : Ty} (h : Spans i [ty.word] j) : typeName.Reads i s ty j s := by
  have builtin : ∀ {k : Keyword} {ty : Ty}, i.Takes (.keyword k) j →
      (do keyword k; return ty : Parser σ Ty).Reads i s ty j s := fun hk =>
    .keyword hk (reads_pure.mpr ⟨rfl, rfl, rfl⟩)
  have other : ∀ {k l : Keyword} {ty : Ty}, i.Takes (.keyword k) j → k ≠ l →
      (do keyword l; return ty : Parser σ Ty).Refuses i := fun hk ne => by
    refine (refuses_keyword ?_).bind _
    rw [hk.next?]
    simpa using ne
  cases ty with
  | int =>
    obtain ⟨_, hk, rfl⟩ : ∃ k, i.Takes (.keyword .int) k ∧ k = j := by simpa [Ty.word] using h
    exact (builtin hk).choice [] (by simp)
  | float =>
    obtain ⟨_, hk, rfl⟩ : ∃ k, i.Takes (.keyword .float) k ∧ k = j := by simpa [Ty.word] using h
    exact (builtin hk).choice [_] (by simp [other hk])
  | string =>
    obtain ⟨_, hk, rfl⟩ : ∃ k, i.Takes (.keyword .string) k ∧ k = j := by simpa [Ty.word] using h
    exact (builtin hk).choice [_, _] (by simp [other hk])
  | void =>
    obtain ⟨_, hk, rfl⟩ : ∃ k, i.Takes (.keyword .void) k ∧ k = j := by simpa [Ty.word] using h
    exact (builtin hk).choice [_, _, _] (by simp [other hk])
  | named name =>
    obtain ⟨_, hk, rfl⟩ : ∃ k, i.Takes (.identifier name) k ∧ k = j := by simpa [Ty.word] using h
    have hr : (do return .named (← identifier) : Parser σ Ty).Reads i s (.named name) _ s :=
      .bind (reads_identifier.mpr ⟨hk, rfl⟩) (reads_pure.mpr ⟨rfl, rfl, rfl⟩)
    have builtin : ∀ {k : Keyword} {ty : Ty},
        (do keyword k; return ty : Parser σ Ty).Refuses i := by
      intro k ty
      refine (refuses_keyword ?_).bind _
      rw [hk.next?]
      simp
    exact hr.choice [_, _, _, _] (by simp [builtin])

/-! ## Expressions -/

namespace Expr

variable {expr : TreeParser NodeId} {operand : Nat → TreeParser NodeId}

theorem refuses_arguments (h : i.next? ≠ some (.symbol .leftParen)) :
    (arguments expr).Refuses i :=
  refuses_named.mpr (Refuses.position ((refuses_between h).bind _))

theorem refuses_literal (h : i.Lacks Token.isLiteral) : literal.Refuses i := by
  refine refuses_satisfy fun t ht => ?_
  split
  · exact absurd ht (h.next_ne rfl)
  · exact absurd ht (h.next_ne rfl)
  · exact absurd ht (h.next_ne rfl)
  · exact absurd ht (h.next_ne rfl)
  · rfl

theorem refuses_atom (h : i.Lacks Token.startsExpr) : (Bare.atom expr).Refuses i := by
  have literals : i.Lacks Token.isLiteral := by
    intro t ht
    have hstart := h t ht
    unfold Token.isLiteral
    split
    · cases hstart
    · cases hstart
    · cases hstart
    · cases hstart
    · rfl
  refine Refuses.position (Refuses.bind (refuses_choice fun p hp => ?_) _)
  simp only [List.mem_cons, List.not_mem_nil, or_false] at hp
  rcases hp with rfl | rfl | rfl | rfl | rfl
  · exact refuses_literal literals
  · exact refuses_decoded fun raw => h.next_ne rfl
  · exact (refuses_keyword (h.next_ne rfl)).bind _
  · exact (refuses_identifier fun name => h.next_ne rfl).bind _
  · exact (refuses_between (h.next_ne rfl)).map _

theorem refuses_unary {op : UnOp} (h : i.next? ≠ some (.symbol op.symbol)) :
    (Bare.unary operand op).Refuses i :=
  Refuses.position ((refuses_symbol h).bind _)

theorem refuses_operand (h : i.Lacks Token.startsExpr) (fuel power : Nat) :
    (Bare.operand fuel power).Refuses i := by
  cases fuel with
  | zero => exact fun s => ⟨rfl, rfl⟩
  | succ fuel =>
    refine Refuses.position (Refuses.bind (refuses_choice fun p hp => ?_) _)
    simp only [List.mem_cons, List.not_mem_nil, or_false] at hp
    rcases hp with rfl | rfl | rfl
    · exact refuses_unary (h.next_ne rfl)
    · exact refuses_unary (h.next_ne rfl)
    · exact refuses_atom h

end Expr

theorem refuses_expression (h : i.Lacks Token.startsExpr) : expression.Refuses i := by
  intro b
  have hr := Expr.refuses_operand h (i.rest.length + 1) 0 b
  unfold Fails at hr ⊢
  simp only [expression_eq, named]
  exact hr

/-! ## Statements -/

namespace Stmt

variable {stmt : TreeParser NodeId}

theorem refuses_block (h : i.next? ≠ some (.symbol .leftCurly)) : (block stmt).Refuses i :=
  refuses_named.mpr (Refuses.position ((refuses_between h).bind _))

theorem refuses_declaration (h : i.Lacks Token.startsType) : declaration.Refuses i := by
  rw [declaration_eq]
  exact refuses_named.mpr (Refuses.position ((refuses_typeName h).bind _))

/-- A type without a name behind it is no declaration. -/
theorem refuses_declaration_of_spans {ty : Ty} (h : Spans i [ty.word] j)
    (hj : ∀ name, j.next? ≠ some (.identifier name)) : declaration.Refuses i := by
  rw [declaration_eq]
  refine refuses_named.mpr (Refuses.position (refuses_bind (fun _ => reads_typeName h) ?_))
  exact (refuses_identifier hj).bind _

theorem refuses_conditional (h : i.next? ≠ some (.keyword .if_)) : (conditional stmt).Refuses i :=
  (refuses_keyword h).bind _

theorem refuses_loop (h : i.next? ≠ some (.keyword .while_)) : (loop stmt).Refuses i :=
  (refuses_keyword h).bind _

theorem refuses_returning (h : i.next? ≠ some (.keyword .return_)) : returning.Refuses i :=
  (refuses_keyword h).bind _

theorem refuses_breaking (h : i.next? ≠ some (.keyword .break_)) : breaking.Refuses i :=
  (refuses_keyword h).bind _

theorem refuses_continuing (h : i.next? ≠ some (.keyword .continue_)) : continuing.Refuses i :=
  (refuses_keyword h).bind _

theorem refuses_printing (h : i.next? ≠ some (.keyword .print)) : printing.Refuses i :=
  (refuses_keyword h).bind _

/-- A closing brace ends a list of statements. -/
theorem refuses_statementWithin (h : i.next? = some (.symbol .rightCurly)) (fuel : Nat) :
    (statementWithin fuel).Refuses i := by
  have ne : ∀ {t : Token}, t ≠ .symbol .rightCurly → i.next? ≠ some t := by
    intro t ht eq
    rw [h] at eq
    exact ht (Option.some.inj eq).symm
  cases fuel with
  | zero => exact fun s => ⟨rfl, rfl⟩
  | succ fuel =>
    refine refuses_named.mpr (Refuses.position (Refuses.bind (refuses_choice fun p hp => ?_) _))
    simp only [List.mem_cons, List.not_mem_nil, or_false] at hp
    rcases hp with rfl | rfl | rfl | rfl | rfl | rfl | rfl | rfl | rfl
    · exact refuses_block (ne (by simp))
    · exact refuses_declaration (Input.lacks_of_next h rfl)
    · exact refuses_conditional (ne (by simp))
    · exact refuses_loop (ne (by simp))
    · exact refuses_returning (ne (by simp))
    · exact refuses_breaking (ne (by simp))
    · exact refuses_continuing (ne (by simp))
    · exact refuses_printing (ne (by simp))
    · exact (refuses_expression (Input.lacks_of_next h rfl)).bind _

end Stmt

theorem refuses_statement (h : i.next? = some (.symbol .rightCurly)) : statement.Refuses i := by
  intro b
  have hr := Stmt.refuses_statementWithin h (i.rest.length + 1) b
  unfold Fails at hr ⊢
  simp only [statement]
  exact hr

end Grammar

end FlatScope
