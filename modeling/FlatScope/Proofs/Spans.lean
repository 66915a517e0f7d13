import FlatScope.Grammar.Expr
import FlatScope.Proofs.Reading

/-!
# Stretches of tokens

`Spans i words j`: the tokens from place `i` up to `j` say these words. The lemmas take a stretch
apart along its words.
-/

namespace FlatScope

namespace Token

variable {t : Token}

@[simp] theorem word?_eq_symbol {s : Symbol} : t.word? = some (.symbol s) ↔ t = .symbol s := by
  cases t <;> simp [word?]

@[simp] theorem word?_eq_keyword {k : Keyword} : t.word? = some (.keyword k) ↔ t = .keyword k := by
  cases t <;> simp [word?]

@[simp] theorem word?_eq_int {value : Nat} : t.word? = some (.int value) ↔ t = .int value := by
  cases t <;> simp [word?]

@[simp] theorem word?_eq_float {value : Binary64} :
    t.word? = some (.float value) ↔ t = .float value := by
  cases t <;> simp [word?]

@[simp] theorem word?_eq_name {name : String} :
    t.word? = some (.name name) ↔ t = .identifier name := by
  cases t <;> simp [word?]

@[simp] theorem word?_eq_text {value : String} : t.word? = some (.text value) ↔
    ∃ raw, t = .string raw ∧ Escape.unquote? raw = some value := by
  cases t <;> simp [word?]

end Token

namespace Grammar

inductive Spans : Input → List Word → Input → Prop where
  | nil (i : Input) : Spans i [] i
  | cons {i j k : Input} {t : Token} {w : Word} {ws : List Word} :
      i.Takes t j → t.word? = some w → Spans j ws k → Spans i (w :: ws) k

@[simp] theorem spans_nil {i j : Input} : Spans i [] j ↔ i = j := by
  constructor
  · intro h
    cases h
    rfl
  · rintro rfl
    exact .nil i

theorem spans_cons {i k : Input} {w : Word} {ws : List Word} :
    Spans i (w :: ws) k ↔ ∃ t j, i.Takes t j ∧ t.word? = some w ∧ Spans j ws k := by
  constructor
  · intro h
    cases h with
    | cons ht hw hs => exact ⟨_, _, ht, hw, hs⟩
  · rintro ⟨t, j, ht, hw, hs⟩
    exact .cons ht hw hs

theorem Spans.append {i j k : Input} {ws vs : List Word} (h : Spans i ws j)
    (h' : Spans j vs k) : Spans i (ws ++ vs) k := by
  induction h with
  | nil => exact h'
  | cons ht hw _ ih => exact .cons ht hw (ih h')

@[simp] theorem spans_append {i k : Input} {ws vs : List Word} :
    Spans i (ws ++ vs) k ↔ ∃ j, Spans i ws j ∧ Spans j vs k := by
  constructor
  · intro h
    induction ws generalizing i with
    | nil => exact ⟨i, .nil i, h⟩
    | cons w ws ih =>
      obtain ⟨t, j, ht, hw, hs⟩ := spans_cons.mp h
      obtain ⟨l, hl, hk⟩ := ih hs
      exact ⟨l, .cons ht hw hl, hk⟩
  · rintro ⟨j, h, h'⟩
    exact h.append h'

theorem Spans.length {i j : Input} {ws : List Word} (h : Spans i ws j) :
    i.rest.length = ws.length + j.rest.length := by
  induction h with
  | nil => simp
  | cons ht _ _ ih =>
    rw [ht.1, List.length_cons, List.length_cons, ih]
    omega

theorem Spans.rest_le {i j : Input} {ws : List Word} (h : Spans i ws j) :
    j.rest.length ≤ i.rest.length := by
  have := h.length
  omega

theorem Spans.rest_lt {i j : Input} {ws : List Word} (h : Spans i ws j) (ne : ws ≠ []) :
    j.rest.length < i.rest.length := by
  have := h.length
  have := List.length_pos_iff.mpr ne
  omega

theorem spans_cons_of {i k : Input} {w : Word} {ws : List Word} {u : Token}
    (hu : ∀ t : Token, t.word? = some w ↔ t = u) :
    Spans i (w :: ws) k ↔ ∃ j, i.Takes u j ∧ Spans j ws k := by
  simp only [spans_cons, hu]
  constructor
  · rintro ⟨_, j, ht, rfl, hs⟩
    exact ⟨j, ht, hs⟩
  · rintro ⟨j, ht, hs⟩
    exact ⟨u, j, ht, rfl, hs⟩

@[simp] theorem spans_symbol {i k : Input} {s : Symbol} {ws : List Word} :
    Spans i (.symbol s :: ws) k ↔ ∃ j, i.Takes (.symbol s) j ∧ Spans j ws k :=
  spans_cons_of fun _ => Token.word?_eq_symbol

@[simp] theorem spans_keyword {i k : Input} {w : Keyword} {ws : List Word} :
    Spans i (.keyword w :: ws) k ↔ ∃ j, i.Takes (.keyword w) j ∧ Spans j ws k :=
  spans_cons_of fun _ => Token.word?_eq_keyword

@[simp] theorem spans_int {i k : Input} {value : Nat} {ws : List Word} :
    Spans i (.int value :: ws) k ↔ ∃ j, i.Takes (.int value) j ∧ Spans j ws k :=
  spans_cons_of fun _ => Token.word?_eq_int

@[simp] theorem spans_float {i k : Input} {value : Binary64} {ws : List Word} :
    Spans i (.float value :: ws) k ↔ ∃ j, i.Takes (.float value) j ∧ Spans j ws k :=
  spans_cons_of fun _ => Token.word?_eq_float

@[simp] theorem spans_name {i k : Input} {name : String} {ws : List Word} :
    Spans i (.name name :: ws) k ↔ ∃ j, i.Takes (.identifier name) j ∧ Spans j ws k :=
  spans_cons_of fun _ => Token.word?_eq_name

@[simp] theorem spans_inParens {i l : Input} {ws : List Word} :
    Spans i (inParens ws) l ↔ ∃ j k, i.Takes (.symbol .leftParen) j ∧ Spans j ws k ∧
      k.Takes (.symbol .rightParen) l := by
  simp [inParens]

@[simp] theorem spans_inBraces {i l : Input} {ws : List Word} :
    Spans i (inBraces ws) l ↔ ∃ j k, i.Takes (.symbol .leftCurly) j ∧ Spans j ws k ∧
      k.Takes (.symbol .rightCurly) l := by
  simp [inBraces]

/-- All tokens of a list from its start to its end. -/
theorem spans_iff_spells {tokens : List Token} {n m : Nat} {ws : List Word} :
    Spans ⟨n, tokens⟩ ws ⟨m, []⟩ ↔ Spells tokens ws ∧ m = n + tokens.length := by
  induction tokens generalizing n ws with
  | nil =>
    cases ws with
    | nil => simp [Spells, eq_comm]
    | cons w ws => simp [spans_cons, Spells]
  | cons t ts ih =>
    cases ws with
    | nil => simp [Spells]
    | cons w ws =>
      have hm : m = n + 1 + ts.length ↔ m = n + (ts.length + 1) := by omega
      simp only [spans_cons, Input.takes_cons, Spells, List.map_cons, List.cons.injEq,
        List.length_cons] at ih ⊢
      constructor
      · rintro ⟨_, _, ⟨rfl, rfl⟩, hw, hs⟩
        exact ⟨⟨hw, (ih.mp hs).1⟩, hm.mp (ih.mp hs).2⟩
      · rintro ⟨⟨hw, hs⟩, hl⟩
        exact ⟨t, _, ⟨rfl, rfl⟩, hw, ih.mpr ⟨hs, hm.mpr hl⟩⟩

/-! ## Names and types -/

open FlatScope.Grammar.Parser

variable {σ : Type} {i j : Input} {s t : σ}

@[simp] theorem reads_identifier {name : String} :
    identifier.Reads i s name j t ↔ i.Takes (.identifier name) j ∧ s = t := by
  simp only [identifier, reads_named, reads_select]
  constructor
  · rintro ⟨⟨x, hx, hf⟩, rfl⟩
    cases x <;> cases hf
    exact ⟨hx, rfl⟩
  · rintro ⟨h, rfl⟩
    exact ⟨⟨_, h, rfl⟩, rfl⟩

theorem spans_of_typeName {ty : Ty} (h : typeName.Reads i s ty j t) : Spans i [ty.word] j := by
  simp only [typeName, reads_named] at h
  obtain ⟨p, hp, u, hr⟩ := h.of_choice
  simp only [List.mem_cons, List.not_mem_nil, or_false] at hp
  rcases hp with rfl | rfl | rfl | rfl | rfl <;>
    simp only [reads_bind, reads_keyword, reads_identifier, reads_pure] at hr
  all_goals
    obtain ⟨_, k, _, ⟨hk, rfl⟩, rfl, rfl, rfl⟩ := hr
    simp [Ty.word, hk]

end Grammar

end FlatScope
