import Mathlib.Computability.Language
import Mathlib.Order.CompletePartialOrder
import FlatScope.Grammar.Failure
import FlatScope.Proofs.Escaping
import FlatScope.Proofs.Sentence
import FlatScope.Proofs.Spans

/-!
# Tokens that can go on

A token list is `Viable` if a program begins with it: some tokens behind it complete a sentence of
the grammar. `Admits tokens k item` says what it takes for `item` to be expected behind the first
`k` tokens, and a recorded failure is `Justified` if all it expects is admitted where it is and it
names the token there. `Welcome` is the same promise for a whole language of phrases, from which the
expectations of a parser follow.
-/

namespace FlatScope

/-! ## Words and the tokens that say them -/

theorem Word.exists_token (w : Word) : ∃ t : Token, t.word? = some w := by
  cases w with
  | symbol s => exact ⟨.symbol s, rfl⟩
  | keyword k => exact ⟨.keyword k, rfl⟩
  | int value => exact ⟨.int value, rfl⟩
  | float value => exact ⟨.float value, rfl⟩
  | name name => exact ⟨.identifier name, rfl⟩
  | text value =>
    exact ⟨.string (Escape.literal value), by simp [Token.word?, Escape.unquote?_literal]⟩

theorem exists_spells (ws : List Word) : ∃ tokens, Spells tokens ws := by
  induction ws with
  | nil => exact ⟨[], rfl⟩
  | cons w ws ih =>
    obtain ⟨t, ht⟩ := w.exists_token
    obtain ⟨ts, hts⟩ := ih
    exact ⟨t :: ts, by simpa [Spells, ht] using hts⟩

theorem Spells.append {ts us : List Token} {ws vs : List Word} (h : Spells ts ws)
    (h' : Spells us vs) : Spells (ts ++ us) (ws ++ vs) := by
  unfold Spells at h h' ⊢
  rw [List.map_append, List.map_append, h, h']

/-- A string literal that holds a bad escape; no word says it. -/
def Token.Malformed (t : Token) : Prop := ∃ raw, t = .string raw ∧ Escape.unquote? raw = none

/-- A program begins with these tokens. -/
def Viable (tokens : List Token) : Prop :=
  ∃ rest words, Derives .unit words ∧ Spells (tokens ++ rest) words

theorem viable_of_spells {tokens : List Token} {us vs : List Word} (h : Spells tokens us)
    (hd : Derives .unit (us ++ vs)) : Viable tokens := by
  obtain ⟨rest, hrest⟩ := exists_spells vs
  exact ⟨rest, us ++ vs, hd, h.append hrest⟩

theorem Viable.of_append {ts us : List Token} (h : Viable (ts ++ us)) : Viable ts := by
  obtain ⟨rest, words, hd, hs⟩ := h
  exact ⟨us ++ rest, words, hd, by rwa [← List.append_assoc]⟩

theorem Viable.take {tokens : List Token} (h : Viable tokens) (k : Nat) :
    Viable (tokens.take k) := by
  rw [← List.take_append_drop k tokens] at h
  exact h.of_append

namespace Grammar

/-! ## Places in a token list -/

variable {ts : List Token} {k m : Nat} {t : Token} {j : Input} {us vs ws : List Word}

theorem Spans.eq_place (h : Spans (place ts k) us j) : j = place ts (k + us.length) := by
  induction us generalizing k with
  | nil => exact (spans_nil.mp h).symm
  | cons u us ih =>
    obtain ⟨t, i, ht, -, hs⟩ := spans_cons.mp h
    obtain rfl := (takes_place.mp ht).2
    rw [ih hs, List.length_cons, Nat.add_right_comm, Nat.add_assoc]

theorem take_succ_of_getElem? (h : ts[k]? = some t) : ts.take (k + 1) = ts.take k ++ [t] := by
  rw [List.take_add_one, h]
  rfl

/-- What is spelled up to a place grows by what is spelled from there on. -/
theorem Spans.spells_take (h : Spans (place ts k) us (place ts m)) (hs : Spells (ts.take k) ws) :
    Spells (ts.take m) (ws ++ us) := by
  induction us generalizing k ws with
  | nil =>
    obtain rfl : k = m := congrArg Input.pos (spans_nil.mp h)
    rwa [List.append_nil]
  | cons u us ih =>
    obtain ⟨t, i, ht, hw, hrest⟩ := spans_cons.mp h
    obtain ⟨hk, rfl⟩ := takes_place.mp ht
    have hone : Spells [t] [u] := by simp [Spells, hw]
    have := ih hrest (take_succ_of_getElem? hk ▸ hs.append hone)
    rwa [List.append_assoc] at this

theorem Spans.le_length (h : Spans (place ts k) us (place ts m)) (hk : k ≤ ts.length) :
    m ≤ ts.length := by
  have hm : m = k + us.length := congrArg Input.pos h.eq_place
  have hlen := h.length
  rw [place_rest_length, place_rest_length] at hlen
  omega

/-! ## What may be expected -/

/-- Behind the first `k` tokens `item` can stand. -/
def Admits (ts : List Token) (k : Nat) : Item → Prop
  | .token t => Viable (ts.take k ++ [t])
  | .endOfInput => ∃ words, Derives .unit words ∧ Spells (ts.take k) words
  | .phrase _ | .somethingElse => Viable (ts.take k)

theorem Admits.viable {item : Item} (h : Admits ts k item) : Viable (ts.take k) := by
  cases item with
  | token t => exact Viable.of_append h
  | endOfInput =>
    obtain ⟨words, hd, hs⟩ := h
    exact ⟨[], words, hd, by rwa [List.append_nil]⟩
  | phrase _ | somethingElse => exact h

/-- All that the failure expects is admitted where it is, and it names the token there. -/
def Failure.Justified (ts : List Token) (f : Failure) : Prop :=
  f.pos ≤ ts.length ∧
    match f.cause with
    | .badEscape => Viable (ts.take f.pos) ∧ ∃ t, ts[f.pos]? = some t ∧ t.Malformed
    | .expected items found =>
      items ≠ [] ∧ (∀ item ∈ items, Admits ts f.pos item) ∧
        (found = ts[f.pos]? ∨ found = none ∧ ∃ t, ts[f.pos]? = some t ∧ t.Malformed)

theorem Failure.Justified.viable {f : Failure} (h : f.Justified ts) : Viable (ts.take f.pos) := by
  obtain ⟨-, h⟩ := h
  cases hc : f.cause with
  | badEscape =>
    rw [hc] at h
    exact h.1
  | expected items found =>
    rw [hc] at h
    obtain ⟨hne, hitems, -⟩ := h
    obtain ⟨item, hitem⟩ := List.exists_mem_of_ne_nil items hne
    exact (hitems item hitem).viable

/-! ## Phrases that may stand somewhere -/

/-- Each phrase of the language may stand behind the first `k` tokens. -/
def Welcome (ts : List Token) (L : Language Word) (k : Nat) : Prop :=
  k ≤ ts.length ∧
    ∀ ws ∈ L, ∃ us vs, Spells (ts.take k) us ∧ Derives .unit (us ++ ws ++ vs)

variable {L M : Language Word}

theorem Welcome.mono (h : Welcome ts M k) (hle : L ≤ M) : Welcome ts L k :=
  ⟨h.1, fun ws hws => h.2 ws (hle hws)⟩

/-- The first half of a phrase may stand where the phrase may. -/
theorem Welcome.left (h : Welcome ts (L * M) k) (hM : ∃ vs, vs ∈ M) : Welcome ts L k := by
  obtain ⟨vs, hvs⟩ := hM
  refine ⟨h.1, fun ws hws => ?_⟩
  obtain ⟨us, xs, hs, hd⟩ := h.2 (ws ++ vs) (Language.append_mem_mul hws hvs)
  exact ⟨us, vs ++ xs, hs, by simpa using hd⟩

/-- The second half of a phrase may stand behind its first half. -/
theorem Welcome.right (h : Welcome ts (L * M) k) (hus : us ∈ L)
    (hs : Spans (place ts k) us (place ts m)) : Welcome ts M m := by
  refine ⟨hs.le_length h.1, fun ws hws => ?_⟩
  obtain ⟨xs, vs, hxs, hd⟩ := h.2 (us ++ ws) (Language.append_mem_mul hus hws)
  exact ⟨xs ++ us, vs, hs.spells_take hxs, by simpa using hd⟩

theorem Welcome.viable (h : Welcome ts L k) (hL : ∃ ws, ws ∈ L) : Viable (ts.take k) := by
  obtain ⟨ws, hws⟩ := hL
  obtain ⟨us, vs, hs, hd⟩ := h.2 ws hws
  exact viable_of_spells hs (by simpa using hd)

/-- A phrase of one word may be expected as the token that says it. -/
theorem Welcome.admits_token {w : Word} (h : Welcome ts L k) (hL : [w] ∈ L)
    (hw : t.word? = some w) : Admits ts k (.token t) := by
  obtain ⟨us, vs, hs, hd⟩ := h.2 [w] hL
  have hone : Spells [t] [w] := by simp [Spells, hw]
  exact viable_of_spells (hs.append hone) hd

end Grammar

end FlatScope
