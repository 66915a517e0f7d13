import FlatScope.Grammar.Parser
import FlatScope.Proofs.Spelling

/-!
# What parsers read

`p.Reads i s a j t`: from place `i` and state `s` parser `p` reads `a`, stops at `j` and leaves
state `t`. `p.Fails i s t`: it reads nothing there and leaves `t`. `p.Refuses i`: it reads nothing
there and builds nothing. Each combinator has an equation for what it reads and a rule for what it
refuses; the record of failures plays no part.
-/

namespace FlatScope.Grammar

/-- The token at the front and the place behind it. -/
def Input.Takes (i : Input) (t : Token) (j : Input) : Prop :=
  i.rest = t :: j.rest ∧ j.pos = i.pos + 1

@[simp] theorem Input.not_takes_nil {n : Nat} {t : Token} {j : Input} :
    ¬ (⟨n, []⟩ : Input).Takes t j := by
  simp [Input.Takes]

@[simp] theorem Input.takes_cons {n : Nat} {t u : Token} {ts : List Token} {j : Input} :
    (⟨n, t :: ts⟩ : Input).Takes u j ↔ t = u ∧ j = ⟨n + 1, ts⟩ := by
  obtain ⟨m, us⟩ := j
  simp only [Input.Takes, List.cons.injEq, Input.mk.injEq]
  constructor
  · rintro ⟨⟨rfl, rfl⟩, rfl⟩
    exact ⟨rfl, rfl, rfl⟩
  · rintro ⟨rfl, rfl, rfl⟩
    exact ⟨⟨rfl, rfl⟩, rfl⟩

/-- The next token, if there is one. -/
def Input.next? (i : Input) : Option Token := i.rest.head?

theorem Input.Takes.next? {i j : Input} {t : Token} (h : i.Takes t j) : i.next? = some t := by
  simp [Input.next?, h.1]

theorem Input.Takes.next_ne {i j : Input} {t u : Token} (h : i.Takes t j) (ne : t ≠ u) :
    i.next? ≠ some u := by
  rw [h.next?]
  exact fun eq => ne (Option.some.inj eq)

theorem Input.Takes.eq {i j k : Input} {t u : Token} (h : i.Takes t j) (h' : i.Takes u k) :
    t = u ∧ j = k := by
  obtain ⟨n, ts⟩ := j
  obtain ⟨m, us⟩ := k
  obtain ⟨hr, hp⟩ := h
  obtain ⟨hr', hp'⟩ := h'
  simp_all

theorem Input.Takes.rest_lt {i j : Input} {t : Token} (h : i.Takes t j) :
    j.rest.length < i.rest.length := by
  simp [h.1]

/-- The input from token number `k` on. -/
def place (ts : List Token) (k : Nat) : Input := ⟨k, ts.drop k⟩

@[simp] theorem place_rest_length {ts : List Token} {k : Nat} :
    (place ts k).rest.length = ts.length - k := by simp [place]

theorem next?_place {ts : List Token} {k : Nat} : (place ts k).next? = ts[k]? := by
  simp [Input.next?, place]

theorem takes_place {ts : List Token} {k : Nat} {t : Token} {j : Input} :
    (place ts k).Takes t j ↔ ts[k]? = some t ∧ j = place ts (k + 1) := by
  by_cases hk : k < ts.length
  · have hdrop : place ts k = ⟨k, ts[k] :: ts.drop (k + 1)⟩ := by
      rw [place, List.drop_eq_getElem_cons hk]
    rw [hdrop, Input.takes_cons, List.getElem?_eq_getElem hk, Option.some.injEq]
    rfl
  · have hdrop : place ts k = ⟨k, []⟩ := by
      rw [place, List.drop_eq_nil_of_le (Nat.le_of_not_lt hk)]
    rw [hdrop, List.getElem?_eq_none (Nat.le_of_not_lt hk)]
    simp

/-- What the second of two attempts gives, the marks of the first below its own. -/
def Outcome.after {σ α β : Type} (second : Outcome σ β) (first : Outcome σ α) : Outcome σ β :=
  ⟨second.result, second.state, fun g => second.note (first.note g)⟩

namespace Parser

variable {σ α β : Type} {i j k : Input} {s t u : σ}

def Reads (p : Parser σ α) (i : Input) (s : σ) (a : α) (j : Input) (t : σ) : Prop :=
  (p i s).result = some (a, j) ∧ (p i s).state = t

def Fails (p : Parser σ α) (i : Input) (s t : σ) : Prop :=
  (p i s).result = none ∧ (p i s).state = t

/-- Reads nothing and builds nothing. -/
def Refuses (p : Parser σ α) (i : Input) : Prop := ∀ s, p.Fails i s s

/-! ## One attempt after the other -/

section

variable {p q : Parser σ α} {a : α}

theorem bind_of_none {f : α → Parser σ β} (h : (p i s).result = none) :
    (p >>= f) i s = ⟨none, (p i s).state, (p i s).note⟩ := by
  simp only [Bind.bind, Parser.bind, h]

theorem bind_of_some {f : α → Parser σ β} (h : (p i s).result = some (a, j)) :
    (p >>= f) i s = (f a j (p i s).state).after (p i s) := by
  simp only [Bind.bind, Parser.bind, h]
  rfl

theorem position_bind (f : Nat → Parser σ α) : (position >>= f) = fun i => f i.pos i := rfl

theorem bind_congr_of_reads {f f' : α → Parser σ β}
    (h : ∀ a j t, p.Reads i s a j t → f a j t = f' a j t) : (p >>= f) i s = (p >>= f') i s := by
  cases hp : (p i s).result with
  | none => rw [bind_of_none hp, bind_of_none hp]
  | some r => rw [bind_of_some hp, bind_of_some hp, h r.1 r.2 _ ⟨hp, rfl⟩]

theorem orElse_of_some {r : α × Input} (h : (p i s).result = some r) :
    orElse p q i s = p i s := by
  simp only [orElse, h]

theorem orElse_of_none (h : (p i s).result = none) :
    orElse p q i s = (q i (p i s).state).after (p i s) := by
  simp only [orElse, h]
  rfl

theorem optional_bind_of_some {f : Option α → Parser σ β} (h : (p i s).result = some (a, j)) :
    (optional p >>= f) i s = (f (some a) j (p i s).state).after (p i s) := by
  simp only [Bind.bind, Parser.bind, optional, orElse, Functor.map, h]
  rfl

theorem optional_bind_of_none {f : Option α → Parser σ β} (h : (p i s).result = none) :
    (optional p >>= f) i s = (f none i (p i s).state).after (p i s) := by
  simp only [Bind.bind, Parser.bind, optional, orElse, Functor.map, h]
  rfl

theorem extendWithin_of_none {step : α → Parser σ α} {fuel : Nat}
    (h : (step a i s).result = none) : extendWithin step (fuel + 1) a i s =
      ⟨some (a, i), (step a i s).state, (step a i s).note⟩ := optional_bind_of_none h

theorem extendWithin_of_some {step : α → Parser σ α} {fuel : Nat} {b : α}
    (h : (step a i s).result = some (b, j)) : extendWithin step (fuel + 1) a i s =
      (extendWithin step fuel b j (step a i s).state).after (step a i s) :=
  optional_bind_of_some h

end

/-! ## Sequences -/

@[simp] theorem reads_pure {a b : α} :
    (pure a : Parser σ α).Reads i s b j t ↔ a = b ∧ i = j ∧ s = t := by
  simp only [Reads, pure, Parser.pure, Option.some.injEq, Prod.mk.injEq, and_assoc]

theorem reads_bind {p : Parser σ α} {f : α → Parser σ β} {b : β} :
    (p >>= f).Reads i s b k u ↔ ∃ a j t, p.Reads i s a j t ∧ (f a).Reads j t b k u := by
  simp only [Reads, bind, Parser.bind]
  split
  · next h => simp [h]
  · next a j h =>
    rw [h]
    constructor
    · exact fun hb => ⟨a, j, _, ⟨rfl, rfl⟩, hb⟩
    · rintro ⟨_, _, _, ⟨⟨⟩, rfl⟩, hb⟩
      exact hb

theorem Reads.bind {p : Parser σ α} {f : α → Parser σ β} {a : α} {b : β}
    (h : p.Reads i s a j t) (h' : (f a).Reads j t b k u) : (p >>= f).Reads i s b k u :=
  reads_bind.mpr ⟨a, j, t, h, h'⟩

theorem Refuses.bind {p : Parser σ α} (h : p.Refuses i) (f : α → Parser σ β) :
    (p >>= f).Refuses i := by
  intro s
  obtain ⟨hr, hs⟩ := h s
  simp only [Fails, Bind.bind, Parser.bind, hr]
  exact ⟨trivial, hs⟩

/-- What is read before it is refused must not build anything. -/
theorem refuses_bind {p : Parser σ α} {f : α → Parser σ β} {a : α}
    (h : ∀ s, p.Reads i s a j s) (hf : (f a).Refuses j) : (p >>= f).Refuses i := by
  intro s
  obtain ⟨hr, hs⟩ := h s
  simp only [Fails, Bind.bind, Parser.bind, hr, hs]
  exact hf s

@[simp] theorem reads_map {p : Parser σ α} {f : α → β} {b : β} :
    (f <$> p).Reads i s b j t ↔ ∃ a, p.Reads i s a j t ∧ f a = b := by
  rw [show f <$> p = p >>= fun a => pure (f a) from rfl, reads_bind]
  constructor
  · rintro ⟨a, k, u, h, h'⟩
    obtain ⟨rfl, rfl, rfl⟩ := reads_pure.mp h'
    exact ⟨a, h, rfl⟩
  · rintro ⟨a, h, rfl⟩
    exact ⟨a, j, t, h, reads_pure.mpr ⟨rfl, rfl, rfl⟩⟩

theorem Reads.map {p : Parser σ α} {a : α} (h : p.Reads i s a j t) (f : α → β) :
    (f <$> p).Reads i s (f a) j t := reads_map.mpr ⟨a, h, rfl⟩

theorem Refuses.map {p : Parser σ α} (h : p.Refuses i) (f : α → β) : (f <$> p).Refuses i :=
  h.bind _

@[simp] theorem reads_position {n : Nat} :
    (position : Parser σ Nat).Reads i s n j t ↔ i.pos = n ∧ i = j ∧ s = t := by
  simp only [Reads, position, Option.some.injEq, Prod.mk.injEq, and_assoc]

theorem Reads.position {f : Nat → Parser σ α} {a : α} (h : (f i.pos).Reads i s a j t) :
    (Parser.position >>= f).Reads i s a j t :=
  Reads.bind (reads_position.mpr ⟨rfl, rfl, rfl⟩) h

theorem Refuses.position {f : Nat → Parser σ α} (h : (f i.pos).Refuses i) :
    (Parser.position >>= f).Refuses i :=
  refuses_bind (fun _ => reads_position.mpr ⟨rfl, rfl, rfl⟩) h

@[simp] theorem reads_build {f : Nat → σ → α × σ} {a : α} :
    (build f).Reads i s a j t ↔ f i.pos s = (a, t) ∧ i = j := by
  simp only [Reads, build, Option.some.injEq, Prod.mk.injEq]
  constructor
  · rintro ⟨⟨rfl, rfl⟩, rfl⟩
    exact ⟨rfl, rfl⟩
  · rintro ⟨h, rfl⟩
    rw [h]
    exact ⟨⟨rfl, rfl⟩, rfl⟩

/-! ## Single tokens -/

@[simp] theorem not_reads_fail {a : α} : ¬ (fail : Parser σ α).Reads i s a j t := by
  rintro ⟨h, -⟩
  cases h

theorem reads_satisfy {item : Item} {f : Token → Option α} {a : α} :
    (satisfy item f).Reads i s a j t ↔ (∃ x, i.Takes x j ∧ f x = some a) ∧ s = t := by
  obtain ⟨n, ts⟩ := i
  cases ts with
  | nil => simp [Reads, satisfy]
  | cons x ts =>
    cases h : f x with
    | none => simp [Reads, satisfy, h]
    | some b =>
      simp only [Reads, satisfy, h, Option.some.injEq, Prod.mk.injEq, Input.takes_cons]
      constructor
      · rintro ⟨⟨rfl, rfl⟩, rfl⟩
        exact ⟨⟨x, ⟨rfl, rfl⟩, h⟩, rfl⟩
      · rintro ⟨⟨_, ⟨rfl, rfl⟩, hf⟩, rfl⟩
        exact ⟨⟨Option.some.inj (h.symm.trans hf), rfl⟩, rfl⟩

theorem refuses_satisfy {item : Item} {f : Token → Option α}
    (h : ∀ x, i.next? = some x → f x = none) : (satisfy item f : Parser σ α).Refuses i := by
  intro s
  obtain ⟨n, ts⟩ := i
  cases ts with
  | nil => exact ⟨rfl, rfl⟩
  | cons x ts => simp [Fails, satisfy, h x rfl]

theorem reads_token {x : Token} {v : Unit} :
    (token x).Reads i s v j t ↔ i.Takes x j ∧ s = t := by
  simp [token, reads_satisfy]

theorem refuses_token {x : Token} (h : i.next? ≠ some x) :
    (token x : Parser σ Unit).Refuses i :=
  refuses_satisfy fun y hy => by
    have : y ≠ x := fun eq => h (eq ▸ hy)
    simp [this]

@[simp] theorem reads_symbol {x : Symbol} {v : Unit} :
    (symbol x).Reads i s v j t ↔ i.Takes (.symbol x) j ∧ s = t := reads_token

@[simp] theorem reads_keyword {x : Keyword} {v : Unit} :
    (keyword x).Reads i s v j t ↔ i.Takes (.keyword x) j ∧ s = t := reads_token

theorem refuses_symbol {x : Symbol} (h : i.next? ≠ some (.symbol x)) :
    (symbol x : Parser σ Unit).Refuses i := refuses_token h

theorem refuses_keyword {x : Keyword} (h : i.next? ≠ some (.keyword x)) :
    (keyword x : Parser σ Unit).Refuses i := refuses_token h

/-- A symbol that is there is read, and what follows goes on behind it. -/
theorem Reads.symbol {x : Symbol} {f : Unit → Parser σ α} {a : α} (h : i.Takes (.symbol x) j)
    (h' : (f ()).Reads j s a k t) : (Parser.symbol x >>= f).Reads i s a k t :=
  Reads.bind (reads_symbol.mpr ⟨h, rfl⟩) h'

theorem Reads.keyword {x : Keyword} {f : Unit → Parser σ α} {a : α} (h : i.Takes (.keyword x) j)
    (h' : (f ()).Reads j s a k t) : (Parser.keyword x >>= f).Reads i s a k t :=
  Reads.bind (reads_keyword.mpr ⟨h, rfl⟩) h'

@[simp] theorem reads_select {f : Token → Option α} {a : α} :
    (select f).Reads i s a j t ↔ (∃ x, i.Takes x j ∧ f x = some a) ∧ s = t := reads_satisfy

@[simp] theorem reads_endOfInput {v : Unit} :
    endOfInput.Reads i s v j t ↔ i.rest = [] ∧ i = j ∧ s = t := by
  obtain ⟨n, ts⟩ := i
  cases ts <;> simp [Reads, endOfInput]

@[simp] theorem reads_decoded {decode : String → Option α} {a : α} :
    (decoded decode).Reads i s a j t ↔
      (∃ raw, i.Takes (.string raw) j ∧ decode raw = some a) ∧ s = t := by
  obtain ⟨n, ts⟩ := i
  match ts with
  | .string raw :: ts =>
    cases h : decode raw with
    | none => simp [Reads, decoded, h]
    | some b =>
      simp only [Reads, decoded, h, Option.some.injEq, Prod.mk.injEq, Input.takes_cons,
        Token.string.injEq]
      constructor
      · rintro ⟨⟨rfl, rfl⟩, rfl⟩
        exact ⟨⟨raw, ⟨rfl, rfl⟩, h⟩, rfl⟩
      · rintro ⟨⟨_, ⟨rfl, rfl⟩, hd⟩, rfl⟩
        exact ⟨⟨Option.some.inj (h.symm.trans hd), rfl⟩, rfl⟩
  | [] | .symbol _ :: _ | .keyword _ :: _ | .int _ :: _ | .float _ :: _ | .identifier _ :: _
  | .invalid :: _ => simp [Reads, decoded]

theorem refuses_decoded {decode : String → Option α} (h : ∀ raw, i.next? ≠ some (.string raw)) :
    (decoded decode : Parser σ α).Refuses i := by
  intro s
  obtain ⟨n, ts⟩ := i
  match ts with
  | .string raw :: ts => exact absurd rfl (h raw)
  | [] | .symbol _ :: _ | .keyword _ :: _ | .int _ :: _ | .float _ :: _ | .identifier _ :: _
  | .invalid :: _ => exact ⟨rfl, rfl⟩

/-! ## Alternatives -/

theorem reads_orElse {p q : Parser σ α} {a : α} :
    (orElse p q).Reads i s a j t ↔
      p.Reads i s a j t ∨ ∃ u, p.Fails i s u ∧ q.Reads i u a j t := by
  simp only [Reads, Fails, orElse]
  split
  · next h => simp [h]
  · next h => simp [h]

theorem Refuses.orElse {p q : Parser σ α} (hp : p.Refuses i) (hq : q.Refuses i) :
    (orElse p q).Refuses i := by
  intro s
  obtain ⟨hr, hs⟩ := hp s
  simp only [Fails, Parser.orElse, hr, hs]
  exact hq s

@[simp] theorem reads_choice_cons {p : Parser σ α} {ps : List (Parser σ α)} {a : α} :
    (choice (p :: ps)).Reads i s a j t ↔
      p.Reads i s a j t ∨ ∃ u, p.Fails i s u ∧ (choice ps).Reads i u a j t :=
  reads_orElse

/-- What a choice reads, one of its alternatives reads, maybe in another state. -/
theorem Reads.of_choice {ps : List (Parser σ α)} {a : α} (h : (choice ps).Reads i s a j t) :
    ∃ p ∈ ps, ∃ u, p.Reads i u a j t := by
  induction ps generalizing s with
  | nil => exact absurd h not_reads_fail
  | cons p ps ih =>
    rcases reads_choice_cons.mp h with hp | ⟨u, -, hps⟩
    · exact ⟨p, List.mem_cons_self, s, hp⟩
    · obtain ⟨q, hq, v, hr⟩ := ih hps
      exact ⟨q, List.mem_cons_of_mem _ hq, v, hr⟩

/-- An alternative is kept if those before it refuse. -/
theorem Reads.choice {p : Parser σ α} {a : α} (h : p.Reads i s a j t)
    (ps : List (Parser σ α)) {qs : List (Parser σ α)} (before : ∀ q ∈ ps, q.Refuses i) :
    (choice (ps ++ p :: qs)).Reads i s a j t := by
  induction ps with
  | nil => exact reads_choice_cons.mpr (.inl h)
  | cons q ps ih =>
    obtain ⟨hq, hps⟩ := List.forall_mem_cons.mp before
    exact reads_choice_cons.mpr (.inr ⟨s, hq s, ih hps⟩)

theorem refuses_choice {ps : List (Parser σ α)} (h : ∀ p ∈ ps, p.Refuses i) :
    (choice ps).Refuses i := by
  induction ps with
  | nil => exact fun s => ⟨rfl, rfl⟩
  | cons p ps ih =>
    obtain ⟨hp, hps⟩ := List.forall_mem_cons.mp h
    exact hp.orElse (ih hps)

@[simp] theorem reads_optional {p : Parser σ α} {o : Option α} :
    (optional p).Reads i s o j t ↔
      (∃ a, o = some a ∧ p.Reads i s a j t) ∨ o = none ∧ p.Fails i s t ∧ i = j := by
  have hfail : ∀ u, (some <$> p).Fails i s u ↔ p.Fails i s u := fun u => by
    simp only [Fails, Functor.map, Parser.bind]
    split <;> simp_all [Parser.pure]
  rw [optional, reads_orElse, reads_map]
  constructor
  · rintro (⟨a, h, rfl⟩ | ⟨u, hf, hp⟩)
    · exact .inl ⟨a, rfl, h⟩
    · obtain ⟨rfl, rfl, rfl⟩ := reads_pure.mp hp
      exact .inr ⟨rfl, (hfail u).mp hf, rfl⟩
  · rintro (⟨a, rfl, h⟩ | ⟨rfl, h, rfl⟩)
    · exact .inl ⟨a, h, rfl⟩
    · exact .inr ⟨t, (hfail t).mpr h, reads_pure.mpr ⟨rfl, rfl, rfl⟩⟩

theorem Reads.optional {p : Parser σ α} {a : α} (h : p.Reads i s a j t) :
    (optional p).Reads i s (some a) j t := reads_optional.mpr (.inl ⟨a, rfl, h⟩)

theorem Refuses.optional {p : Parser σ α} (h : p.Refuses i) :
    (optional p).Reads i s none i s := reads_optional.mpr (.inr ⟨rfl, h s, rfl⟩)

/-- What follows goes on from where `p` was read, or else from where it failed. -/
theorem reads_optional_then {p : Parser σ α} {f : Option α → Parser σ β} {b : β} :
    (optional p >>= f).Reads i s b k u ↔
      (∃ t, p.Fails i s t ∧ (f none).Reads i t b k u) ∨
      ∃ a j t, p.Reads i s a j t ∧ (f (some a)).Reads j t b k u := by
  simp only [reads_bind, reads_optional]
  constructor
  · rintro ⟨o, j, t, ⟨a, rfl, ha⟩ | ⟨rfl, hf, rfl⟩, hk⟩
    · exact .inr ⟨a, j, t, ha, hk⟩
    · exact .inl ⟨t, hf, hk⟩
  · rintro (⟨t, hf, hk⟩ | ⟨a, j, t, ha, hk⟩)
    · exact ⟨none, i, t, .inr ⟨rfl, hf, rfl⟩, hk⟩
    · exact ⟨some a, j, t, .inl ⟨a, rfl, ha⟩, hk⟩

@[simp] theorem reads_named {phrase : Phrase} {p : Parser σ α} {a : α} :
    (named phrase p).Reads i s a j t ↔ p.Reads i s a j t := Iff.rfl

@[simp] theorem refuses_named {phrase : Phrase} {p : Parser σ α} :
    (named phrase p).Refuses i ↔ p.Refuses i := Iff.rfl

@[simp] theorem reads_between {opening closing : Symbol} {p : Parser σ α} {l : Input} {a : α} :
    (between opening p closing).Reads i s a l t ↔
      ∃ j k, i.Takes (.symbol opening) j ∧ p.Reads j s a k t ∧ k.Takes (.symbol closing) l := by
  simp only [between, reads_bind, reads_symbol, reads_pure]
  constructor
  · rintro ⟨-, j, _, ⟨hi, rfl⟩, b, k, _, hp, -, l, _, ⟨hl, rfl⟩, rfl, rfl, rfl⟩
    exact ⟨j, k, hi, hp, hl⟩
  · rintro ⟨j, k, hi, hp, hl⟩
    exact ⟨(), j, s, ⟨hi, rfl⟩, a, k, t, hp, (), l, t, ⟨hl, rfl⟩, rfl, rfl, rfl⟩

theorem refuses_between {opening closing : Symbol} {p : Parser σ α}
    (h : i.next? ≠ some (.symbol opening)) : (between opening p closing).Refuses i :=
  (refuses_symbol h).bind _

/-! ## Repetition -/

/-- A list is empty, or a `p` and what `q` reads behind it. -/
theorem reads_optional_cons {p : Parser σ α} {q : Parser σ (List α)} {as : List α} :
    (do
      match ← optional p with
      | none => return []
      | some a => return a :: (← q) : Parser σ (List α)).Reads i s as j t ↔
      (as = [] ∧ p.Fails i s t ∧ i = j) ∨
      ∃ a k u bs, as = a :: bs ∧ p.Reads i s a k u ∧ q.Reads k u bs j t := by
  rw [reads_optional_then]
  constructor
  · rintro (⟨u, hf, hk⟩ | ⟨a, k, u, ha, hk⟩)
    · obtain ⟨rfl, rfl, rfl⟩ := reads_pure.mp hk
      exact .inl ⟨rfl, hf, rfl⟩
    · obtain ⟨bs, l, v, hbs, hl⟩ := reads_bind.mp hk
      obtain ⟨rfl, rfl, rfl⟩ := reads_pure.mp hl
      exact .inr ⟨a, k, u, bs, rfl, ha, hbs⟩
  · rintro (⟨rfl, hf, rfl⟩ | ⟨a, k, u, bs, rfl, ha, hbs⟩)
    · exact .inl ⟨t, hf, reads_pure.mpr ⟨rfl, rfl, rfl⟩⟩
    · exact .inr ⟨a, k, u, ha, hbs.bind (reads_pure.mpr ⟨rfl, rfl, rfl⟩)⟩

theorem reads_manyWithin_succ {p : Parser σ α} {fuel : Nat} {as : List α} :
    (manyWithin p (fuel + 1)).Reads i s as j t ↔
      (as = [] ∧ p.Fails i s t ∧ i = j) ∨
      ∃ a k u bs, as = a :: bs ∧ p.Reads i s a k u ∧ (manyWithin p fuel).Reads k u bs j t := by
  rw [manyWithin]
  exact reads_optional_cons

/-- Induction over what `many` read, with what `p` leaves where it stops reading. -/
theorem Reads.many_induct {p : Parser σ α} {R : Input → σ → List α → Input → σ → Prop}
    (nil : ∀ i s t, s = t ∨ p.Fails i s t → R i s [] i t)
    (cons : ∀ i s a j t as k u, p.Reads i s a j t → R j t as k u → R i s (a :: as) k u)
    {as : List α} (h : (many p).Reads i s as j t) : R i s as j t := by
  have go : ∀ fuel i s as j t, (manyWithin p fuel).Reads i s as j t → R i s as j t := by
    intro fuel
    induction fuel with
    | zero =>
      intro i s as j t h
      obtain ⟨rfl, rfl, rfl⟩ := reads_pure.mp h
      exact nil i s s (.inl rfl)
    | succ fuel ih =>
      intro i s as j t h
      rcases reads_manyWithin_succ.mp h with ⟨rfl, hf, rfl⟩ | ⟨a, k, u, bs, rfl, ha, hbs⟩
      · exact nil i s t (.inr hf)
      · exact cons i s a k u bs j t ha (ih k u bs j t hbs)
  exact go _ i s as j t h

/-- `p` reads the members of a list one after the other, and nothing behind them. -/
inductive ReadsEach (p : Parser σ α) : Input → σ → List α → Input → σ → Prop where
  | nil {i : Input} {s : σ} : p.Refuses i → ReadsEach p i s [] i s
  | cons {i j k : Input} {s t u : σ} {a : α} {as : List α} : p.Reads i s a j t →
      j.rest.length < i.rest.length → ReadsEach p j t as k u → ReadsEach p i s (a :: as) k u

theorem ReadsEach.many {p : Parser σ α} {as : List α} (h : ReadsEach p i s as j t) :
    (many p).Reads i s as j t := by
  have go : ∀ fuel, i.rest.length < fuel → (manyWithin p fuel).Reads i s as j t := by
    induction h with
    | nil hf =>
      intro fuel hlt
      obtain ⟨fuel, rfl⟩ : ∃ n, fuel = n + 1 := ⟨fuel - 1, by omega⟩
      exact reads_manyWithin_succ.mpr (.inl ⟨rfl, hf _, rfl⟩)
    | cons ha hlt _ ih =>
      intro fuel hfuel
      obtain ⟨fuel, rfl⟩ : ∃ n, fuel = n + 1 := ⟨fuel - 1, by omega⟩
      exact reads_manyWithin_succ.mpr (.inr ⟨_, _, _, _, rfl, ha, ih fuel (by omega)⟩)
  exact go _ (Nat.lt_succ_self _)

theorem reads_separatedBy {p : Parser σ α} {separator : Parser σ Unit} {as : List α} :
    (separatedBy p separator).Reads i s as j t ↔
      (as = [] ∧ p.Fails i s t ∧ i = j) ∨
      ∃ a k u bs, as = a :: bs ∧ p.Reads i s a k u ∧
        (many (do separator; p)).Reads k u bs j t := by
  rw [separatedBy]
  exact reads_optional_cons

theorem reads_extendWithin_succ {step : α → Parser σ α} {fuel : Nat} {a c : α} :
    (extendWithin step (fuel + 1) a).Reads i s c k u ↔
      (a = c ∧ (step a).Fails i s u ∧ i = k) ∨
      ∃ b j t, (step a).Reads i s b j t ∧ (extendWithin step fuel b).Reads j t c k u := by
  rw [extendWithin, reads_optional_then]
  refine or_congr_left ⟨?_, ?_⟩
  · rintro ⟨t, hf, hk⟩
    obtain ⟨rfl, rfl, rfl⟩ := reads_pure.mp hk
    exact ⟨rfl, hf, rfl⟩
  · rintro ⟨rfl, hf, rfl⟩
    exact ⟨u, hf, reads_pure.mpr ⟨rfl, rfl, rfl⟩⟩

/-- What holds at the start and is kept by every step, taken or not, holds of the result. -/
theorem Reads.extend_induct {step : α → Parser σ α} {P : α → Input → σ → Prop}
    (keep : ∀ a i s b j t, P a i s → (step a).Reads i s b j t → P b j t)
    (stop : ∀ a i s t, P a i s → (step a).Fails i s t → P a i t) {a b : α}
    (h : (extend step a).Reads i s b j t) (start : P a i s) : P b j t := by
  have go : ∀ fuel a i s, P a i s → (extendWithin step fuel a).Reads i s b j t → P b j t := by
    intro fuel
    induction fuel with
    | zero =>
      intro a i s start h
      obtain ⟨rfl, rfl, rfl⟩ := reads_pure.mp h
      exact start
    | succ fuel ih =>
      intro a i s start h
      rcases reads_extendWithin_succ.mp h with ⟨rfl, hf, rfl⟩ | ⟨c, k, u, hc, hk⟩
      · exact stop a i s t start hf
      · exact ih c k u (keep a i s c k u start hc) hk
  exact go _ a i s start h

/-- `step` takes `a` to `b` as far as it goes. -/
inductive Extends (step : α → Parser σ α) : α → Input → σ → α → Input → σ → Prop where
  | stop {a : α} {i : Input} {s : σ} : (step a).Refuses i → Extends step a i s a i s
  | step {a b c : α} {i j k : Input} {s t u : σ} : (step a).Reads i s b j t →
      j.rest.length < i.rest.length → Extends step b j t c k u → Extends step a i s c k u

theorem Extends.reads {step : α → Parser σ α} {a b : α} (h : Extends step a i s b j t) :
    (extend step a).Reads i s b j t := by
  have go : ∀ fuel, i.rest.length < fuel → (extendWithin step fuel a).Reads i s b j t := by
    induction h with
    | stop hf =>
      intro fuel hlt
      obtain ⟨fuel, rfl⟩ : ∃ n, fuel = n + 1 := ⟨fuel - 1, by omega⟩
      exact reads_extendWithin_succ.mpr (.inl ⟨rfl, hf _, rfl⟩)
    | step hb hlt _ ih =>
      intro fuel hfuel
      obtain ⟨fuel, rfl⟩ : ∃ n, fuel = n + 1 := ⟨fuel - 1, by omega⟩
      exact reads_extendWithin_succ.mpr (.inr ⟨_, _, _, hb, ih fuel (by omega)⟩)
  exact go _ (Nat.lt_succ_self _)

/-- A whole token list is read if the parser stops at its end. -/
theorem run_eq_ok {p : Parser σ α} {tokens : List Token} {a : α} :
    p.run tokens s = .ok (a, t) ↔ ∃ n, p.Reads ⟨0, tokens⟩ s a ⟨n, []⟩ t := by
  have whole : ∀ b j, (do let a ← p; endOfInput; return a : Parser σ α).Reads ⟨0, tokens⟩ s b j t ↔
      p.Reads ⟨0, tokens⟩ s b j t ∧ j.rest = [] := by
    intro b j
    simp only [reads_bind, reads_endOfInput, reads_pure]
    constructor
    · rintro ⟨c, k, u, hp, -, l, v, ⟨hr, rfl, rfl⟩, rfl, rfl, rfl⟩
      exact ⟨hp, hr⟩
    · rintro ⟨hp, hr⟩
      exact ⟨b, j, t, hp, (), j, t, ⟨hr, rfl, rfl⟩, rfl, rfl, rfl⟩
  simp only [Reads] at whole
  simp only [run]
  split
  · next b j h =>
    simp only [Except.ok.injEq, Prod.mk.injEq]
    constructor
    · rintro ⟨rfl, ht⟩
      obtain ⟨hp, hr⟩ := (whole b j).mp ⟨h, ht⟩
      exact ⟨j.pos, by rw [← hr]; exact hp⟩
    · rintro ⟨n, hp⟩
      obtain ⟨hr, ht⟩ := (whole a ⟨n, []⟩).mpr ⟨hp, rfl⟩
      rw [h] at hr
      cases hr
      exact ⟨rfl, ht⟩
  · next h =>
    constructor
    · nofun
    · rintro ⟨n, hp⟩
      have := (whole a ⟨n, []⟩).mpr ⟨hp, rfl⟩
      rw [h] at this
      cases this.1

end Parser

end FlatScope.Grammar
