import FlatScope.Proofs.Lookahead
import FlatScope.Proofs.Steadiness

/-!
# What the parsers of expressions report

The languages that expressions are put together from, and for each parser of expressions what it
reports. String literals lose the marks of the alternatives in front of them, and so does an operand
until it is named.
-/

namespace FlatScope.Grammar

open FlatScope.Grammar.Parser
open scoped Computability

/-- The phrases of a part of the language. -/
def phrases (part : Part) : Language Word := {ws | Derives part ws}

def names : Language Word := {ws | ∃ name, ws = [.name name]}

theorem exists_names : ∃ ws, ws ∈ names := ⟨[.name ""], "", rfl⟩

theorem nil_notMem_names : [] ∉ names := by
  rintro ⟨name, h⟩
  cases h

theorem exists_phrases_expr : ∃ ws, ws ∈ phrases .expr := ⟨_, .this⟩

theorem exists_mul {L M : Language Word} (hL : ∃ ws, ws ∈ L) (hM : ∃ ws, ws ∈ M) :
    ∃ ws, ws ∈ L * M := by
  obtain ⟨ws, hws⟩ := hL
  obtain ⟨vs, hvs⟩ := hM
  exact ⟨_, Language.append_mem_mul hws hvs⟩

theorem exists_of_mem_commas {L : Language Word} {parts : List (List Word)}
    (h : ∀ ws ∈ parts, ws ∈ ({[.symbol .comma]} * L : Language Word)) :
    ∃ items : List (List Word), parts = items.map (Word.symbol .comma :: ·) ∧
      ∀ ws ∈ items, ws ∈ L := by
  induction parts with
  | nil => exact ⟨[], rfl, nofun⟩
  | cons part parts ih =>
    obtain ⟨⟨_, rfl, item, hitem, rfl⟩, hparts⟩ := List.forall_mem_cons.mp h
    obtain ⟨items, rfl, hitems⟩ := ih hparts
    exact ⟨item :: items, rfl, List.forall_mem_cons.mpr ⟨hitem, hitems⟩⟩

/-- What is read with commas between was written so. -/
theorem exists_separated {L : Language Word} {ws : List Word}
    (h : ws ∈ L * ({[.symbol .comma]} * L)∗ + 1) :
    ∃ items : List (List Word), ws = separated items ∧ ∀ ws ∈ items, ws ∈ L := by
  rcases h with h | h
  · obtain ⟨first, hfirst, rest, hrest, rfl⟩ := Language.mem_mul.mp h
    obtain ⟨parts, rfl, hparts⟩ := Language.mem_kstar.mp hrest
    obtain ⟨items, rfl, hitems⟩ := exists_of_mem_commas hparts
    refine ⟨first :: items, ?_, List.forall_mem_cons.mpr ⟨hfirst, hitems⟩⟩
    rw [separated, List.flatMap_def]
  · exact ⟨[], h, fun _ h => absurd h List.not_mem_nil⟩

variable {ts ts' : List Token} {n k m : Nat} {c : Prop} {σ : Type}

theorem exists_word_of_identifier (t : Token) (name : String)
    (h : (match t with
      | .identifier name => some name
      | _ => none) = some name) : ∃ w, t.word? = some w ∧ [w] ∈ names := by
  split at h
  · next name => exact ⟨.name name, rfl, name, rfl⟩
  · cases h

theorem reports_identifier : (identifier : Parser σ String).Reports ts c names k :=
  Reports.loose (Reports.named (c := True) (reports_select exists_names exists_word_of_identifier)
    exists_names _)

namespace Expr

theorem nil_notMem_phrases : [] ∉ phrases .expr := by
  intro h
  obtain ⟨e, he⟩ := Derives.hasTree h
  cases e <;> simp [Expr.words, inParens] at he

/-- A list of arguments in parentheses. -/
def argumentPhrases : Language Word := {ws | ∃ args, Derives .args args ∧ ws = inParens args}

theorem exists_argumentPhrases : ∃ ws, ws ∈ argumentPhrases :=
  ⟨_, separated [], .args nofun, rfl⟩

theorem commas_le_argumentPhrases :
    ({[.symbol .leftParen]} * ((phrases .expr * ({[.symbol .comma]} * phrases .expr)∗ + 1) *
      {[.symbol .rightParen]}) : Language Word) ≤ argumentPhrases := by
  rintro _ ⟨_, rfl, _, ⟨args, hargs, _, rfl, rfl⟩, rfl⟩
  obtain ⟨items, rfl, hitems⟩ := exists_separated hargs
  exact ⟨_, .args hitems, rfl⟩

/-- What makes an expression longer. -/
def extensions : Language Word :=
  {ws | ws ≠ [] ∧ ∀ us, Derives .expr us → Derives .expr (us ++ ws)}

theorem creation_le :
    ({[.keyword .new]} * (names * argumentPhrases) : Language Word) ≤ phrases .expr := by
  rintro _ ⟨_, rfl, _, ⟨_, ⟨name, rfl⟩, _, ⟨args, hargs, rfl⟩, rfl⟩, rfl⟩
  exact .creation name hargs

theorem nameOrCall_le : names * (argumentPhrases + 1) ≤ phrases .expr := by
  rintro _ ⟨_, ⟨name, rfl⟩, _, ⟨args, hargs, rfl⟩ | rfl, rfl⟩
  · exact .call name hargs
  · exact .name name

theorem parenthesized_le : ({[.symbol .leftParen]} * (phrases .expr * {[.symbol .rightParen]}) :
    Language Word) ≤ phrases .expr := by
  rintro _ ⟨_, rfl, _, ⟨e, he, _, rfl, rfl⟩, rfl⟩
  exact .paren he

theorem unary_le (op : UnOp) :
    ({[.symbol op.symbol]} * phrases .expr : Language Word) ≤ phrases .expr := by
  rintro _ ⟨_, rfl, _, he, rfl⟩
  exact .unary op he

theorem access_le :
    ({[.symbol .dot]} * (names * (argumentPhrases + 1)) : Language Word) ≤ extensions := by
  rintro _ ⟨_, rfl, _, ⟨_, ⟨name, rfl⟩, _, ⟨args, hargs, rfl⟩ | rfl, rfl⟩, rfl⟩
  · exact ⟨by simp, fun us hus => .methodCall name hus hargs⟩
  · exact ⟨by simp, fun us hus => .access name hus⟩

theorem binary_le (op : BinOp) :
    ({[.symbol op.symbol]} * phrases .expr : Language Word) ≤ extensions := by
  rintro _ ⟨_, rfl, _, he, rfl⟩
  exact ⟨by simp, fun us hus => .binary op hus he⟩

variable {fuel power : Nat}

theorem reports_literal : literal.Reports ts c (phrases .expr) m := by
  refine reports_select exists_phrases_expr fun t a h => ?_
  split at h
  · next value => exact ⟨_, rfl, .intLiteral value⟩
  · next value => exact ⟨_, rfl, .floatLiteral value⟩
  · exact ⟨_, rfl, .null⟩
  · exact ⟨_, rfl, .this⟩
  · cases h

theorem reports_stringLiteral : stringLiteral.Reports ts False (phrases .expr) m := by
  refine reports_decoded exists_phrases_expr (fun raw a h => ?_) fun raw h => ?_
  · obtain ⟨value, hvalue, -⟩ := Option.map_eq_some_iff.mp h
    exact ⟨.text value, by simp [hvalue], .stringLiteral value⟩
  · exact Option.map_eq_none_iff.mp h

section

variable (hE : ∀ m, k < m → (inner fuel).Reports ts True (phrases .expr) m)

include hE

theorem reports_arguments (hkm : k ≤ m) :
    (arguments (inner fuel)).Reports ts c argumentPhrases m := by
  refine Reports.loose (Reports.named (c := True) ?_ exists_argumentPhrases _)
  refine Reports.position (Reports.then_silent ?_ fun _ => silent_build _)
  refine Reports.mono (Reports.between (fun _ => Reports.separatedBy (fun l hl => hE l (by omega))
    exists_phrases_expr fun _ => reports_symbol _) ⟨[], .inr rfl⟩) commas_le_argumentPhrases

theorem reports_creation (hkm : k ≤ m) :
    (creation (inner fuel)).Reports ts c (phrases .expr) m := by
  have h : (creation (inner fuel)).Reports ts c
      ({[.keyword .new]} * (names * argumentPhrases)) m := by
    refine (reports_keyword _).bind (fun _ _ _ _ => ?_)
      (exists_mul exists_names exists_argumentPhrases)
    refine reports_identifier.bind (fun _ _ _ _ => ?_) exists_argumentPhrases
    exact (reports_arguments hE (by omega)).then_silent fun _ => silent_pure _
  exact h.mono creation_le

theorem reports_nameOrCall (hkm : k ≤ m) :
    (nameOrCall (inner fuel)).Reports ts c (phrases .expr) m := by
  have h : (nameOrCall (inner fuel)).Reports ts c (names * (argumentPhrases + 1)) m := by
    refine reports_identifier.bind (fun _ _ _ _ => ?_) ⟨[], .inr rfl⟩
    exact (reports_arguments hE (by omega)).optional.then_silent fun _ => silent_pure _
  exact h.mono nameOrCall_le

theorem reports_parenthesized (hkm : k ≤ m) :
    (parenthesized (inner fuel)).Reports ts c (phrases .expr) m :=
  Reports.mono (Reports.map (Reports.loose (Reports.between
    (fun _ => hE (m + 1) (by omega)) exists_phrases_expr)) _) parenthesized_le

theorem reports_atom (hkm : k ≤ m) :
    (Bare.atom (inner fuel)).Reports ts False (phrases .expr) m := by
  refine Reports.position (Reports.then_silent ?_ fun _ => silent_build _)
  refine reports_choice (List.cons_ne_nil _ _) fun p hp => ?_
  simp only [List.mem_cons, List.not_mem_nil, or_false] at hp
  rcases hp with rfl | rfl | rfl | rfl | rfl
  · exact reports_literal
  · exact reports_stringLiteral
  · exact reports_creation hE hkm
  · exact reports_nameOrCall hE hkm
  · exact reports_parenthesized hE hkm

theorem reports_access (hkm : k ≤ m) (first : Nat) (left : NodeId) :
    (Bare.access (inner fuel) first left).Reports ts c extensions m := by
  have h : (Bare.access (inner fuel) first left).Reports ts c
      ({[.symbol .dot]} * (names * (argumentPhrases + 1))) m := by
    refine (reports_symbol _).bind (fun _ _ _ _ => ?_) (exists_mul exists_names ⟨[], .inr rfl⟩)
    refine reports_identifier.bind (fun _ _ _ _ => ?_) ⟨[], .inr rfl⟩
    exact (reports_arguments hE (by omega)).optional.then_silent fun _ => silent_build _
  exact h.mono access_le

end

section

variable (hO : ∀ power m, k < m → (Bare.operand fuel power).Reports ts False (phrases .expr) m)

include hO

theorem reports_inner (m : Nat) (hm : k < m) : (inner fuel).Reports ts True (phrases .expr) m :=
  (hO 0 m hm).named exists_phrases_expr _

theorem reports_unary (hkm : k ≤ m) (op : UnOp) :
    (Bare.unary (Bare.operand fuel) op).Reports ts False (phrases .expr) m := by
  have h : (Bare.unary (Bare.operand fuel) op).Reports ts False
      ({[.symbol op.symbol]} * phrases .expr) m := by
    refine Reports.position ((reports_symbol _).bind (fun _ us hus _ => ?_) exists_phrases_expr)
    obtain rfl := hus
    exact (hO _ (m + 1) (by omega)).then_silent fun _ => silent_build _
  exact h.mono (unary_le op)

theorem reports_binary (hkm : k ≤ m) (first : Nat) (left : NodeId) (op : BinOp) :
    (Bare.binary (Bare.operand fuel) first left op).Reports ts False extensions m := by
  have h : (Bare.binary (Bare.operand fuel) first left op).Reports ts False
      ({[.symbol op.symbol]} * phrases .expr) m := by
    refine (reports_symbol _).bind (fun _ us hus _ => ?_) exists_phrases_expr
    obtain rfl := hus
    exact (hO _ (m + 1) (by omega)).then_silent fun _ => silent_build _
  exact h.mono (binary_le op)

theorem reports_start (hkm : k ≤ m) : (start fuel).Reports ts False (phrases .expr) m := by
  refine reports_choice (List.cons_ne_nil _ _) fun p hp => ?_
  simp only [List.mem_cons, List.not_mem_nil, or_false] at hp
  rcases hp with rfl | rfl | rfl
  · exact reports_unary hO hkm .not
  · exact reports_unary hO hkm .neg
  · exact reports_atom (reports_inner hO) hkm

theorem reports_step (hkm : k ≤ m) (power first : Nat) (left : NodeId) :
    (step fuel power first left).Reports ts False extensions m := by
  refine reports_choice (List.cons_ne_nil _ _) fun p hp => ?_
  rcases List.mem_cons.mp hp with rfl | hp
  · exact reports_access (reports_inner hO) hkm first left
  · obtain ⟨op, -, rfl⟩ := List.mem_map.mp hp
    exact reports_binary hO hkm first left op

end

theorem mul_kstar_extensions_le : phrases .expr * extensions∗ ≤ phrases .expr := by
  refine mul_kstar_le_self ?_
  rintro _ ⟨us, hus, ws, ⟨-, hws⟩, rfl⟩
  exact hws us hus

theorem reports_operand (fuel power k : Nat) (h : ts.length < k + fuel) :
    (Bare.operand fuel power).Reports ts False (phrases .expr) k := by
  induction fuel generalizing power k with
  | zero =>
    intro hw
    have := hw.1
    omega
  | succ fuel ih =>
    have hO : ∀ power m, k < m → (Bare.operand fuel power).Reports ts False (phrases .expr) m :=
      fun power m hm => ih power m (by omega)
    refine Reports.mono (Reports.position ?_) mul_kstar_extensions_le
    refine (reports_start hO (Nat.le_refl k)).bind (fun left us _ _ => ?_)
      ⟨[], Language.nil_mem_kstar _⟩
    exact Reports.extend (fun left m hm => reports_step hO (by omega) power k left) left

end Expr

theorem reports_expression : expression.Reports ts c (phrases .expr) k := by
  rw [expression_eq]
  intro hw s
  have hle := hw.1
  have h : (Expr.Bare.operand ((place ts k).rest.length + 1) 0).Reports ts False
      (phrases .expr) k :=
    Expr.reports_operand _ _ _ (by rw [place_rest_length]; omega)
  exact (h.named exists_phrases_expr .expression).loose hw s

end FlatScope.Grammar
