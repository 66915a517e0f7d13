import FlatScope.Grammar.Program
import FlatScope.Proofs.Soundness
import FlatScope.Proofs.Viability

/-!
# What a parser reports

`p.Reports ts c L k`: from token number `k` on, where the phrases of `L` are welcome, parser `p`
reads nothing but phrases of `L`, adds only justified failures to the record, and leaves a mark at
`k` or behind it if it fails. If `c` holds, no mark is lost on the way; else those behind `k` may
be. There is one rule a combinator, and the language of a parser is put together as the parser is.
-/

namespace FlatScope.Grammar

open scoped Computability

variable {ts : List Token} {k m n : Nat} {L M N : Language Word} {c : Prop}

/-! ## Records -/

theorem mem_joinItems {xs ys : List Item} {item : Item} :
    item ∈ Cause.joinItems xs ys ↔ item ∈ xs ∨ item ∈ ys := by
  have extend : ∀ short long : List Item,
      item ∈ short.foldl (fun items i => if i ∈ items then items else items ++ [i]) long ↔
        item ∈ long ∨ item ∈ short := by
    intro short
    induction short with
    | nil => simp
    | cons i short ih =>
      intro long
      rw [List.foldl_cons, ih]
      split
      · next hi =>
        constructor
        · rintro (h | h)
          · exact .inl h
          · exact .inr (List.mem_cons_of_mem _ h)
        · rintro (h | h)
          · exact .inl h
          · rcases List.mem_cons.mp h with rfl | h
            · exact .inl hi
            · exact .inr h
      · rw [List.mem_append, List.mem_singleton, List.mem_cons, or_assoc]
  unfold Cause.joinItems
  split
  · exact (extend xs ys).trans or_comm
  · exact extend ys xs

namespace Furthest

variable {g h : Furthest} {item : Item} {token : Option Token} {phrase : Phrase}

/-- Something failed at token number `m` or behind it. -/
def Past (g : Furthest) (m : Nat) : Prop := ∃ f, g = some f ∧ m ≤ f.pos

theorem Past.mono (hg : g.Past m) (hle : k ≤ m) : g.Past k := by
  obtain ⟨f, rfl, hf⟩ := hg
  exact ⟨f, rfl, Nat.le_trans hle hf⟩

theorem past_miss : (g.miss k item token).Past k := by
  cases g with
  | none => exact ⟨_, rfl, Nat.le_refl k⟩
  | some old =>
    simp only [miss]
    split
    · exact ⟨_, rfl, Nat.le_refl k⟩
    · split
      · next h => exact ⟨_, rfl, Nat.le_of_lt h⟩
      · split
        · next h _ _ => exact ⟨_, rfl, by omega⟩
        · exact ⟨_, rfl, Nat.le_refl k⟩

theorem Past.miss (hg : g.Past m) : (g.miss k item token).Past m := by
  obtain ⟨old, rfl, hm⟩ := hg
  simp only [Furthest.miss]
  split
  · exact ⟨_, rfl, by dsimp only; omega⟩
  · split
    · exact ⟨_, rfl, hm⟩
    · split
      · exact ⟨_, rfl, hm⟩
      · exact ⟨_, rfl, by dsimp only; omega⟩

theorem Past.merge_left (hg : g.Past m) : (g.merge h).Past m := by
  obtain ⟨old, rfl, hm⟩ := hg
  cases h with
  | none => exact ⟨_, rfl, hm⟩
  | some other =>
    simp only [merge]
    split
    · exact ⟨_, rfl, by omega⟩
    · split
      · exact ⟨_, rfl, hm⟩
      · exact ⟨_, rfl, hm⟩

theorem Past.merge_right (hh : h.Past m) : (g.merge h).Past m := by
  obtain ⟨other, rfl, hm⟩ := hh
  cases g with
  | none => exact ⟨_, rfl, hm⟩
  | some old =>
    simp only [merge]
    split
    · exact ⟨_, rfl, hm⟩
    · split
      · exact ⟨_, rfl, by omega⟩
      · exact ⟨_, rfl, by dsimp only; omega⟩

theorem Past.rename (hg : g.Past m) : (g.rename phrase k).Past m := by
  obtain ⟨f, rfl, hm⟩ := hg
  simp only [Furthest.rename]
  split
  · exact ⟨_, rfl, by dsimp only; omega⟩
  · exact ⟨_, rfl, hm⟩

/-- What is recorded, if anything is, is justified. -/
def Justified (ts : List Token) (g : Furthest) : Prop := ∀ f, g = some f → f.Justified ts

theorem justified_none : Justified ts none := nofun

theorem Justified.some {f : Failure} (hf : f.Justified ts) : Justified ts (some f) := by
  rintro _ ⟨⟩
  exact hf

theorem Justified.miss (hk : k ≤ ts.length) (ha : Admits ts k item) (hg : g.Justified ts) :
    (g.miss k item ts[k]?).Justified ts := by
  have single : Failure.Justified ts ⟨k, .expected [item] ts[k]?⟩ :=
    ⟨hk, List.cons_ne_nil _ _, List.forall_mem_singleton.mpr ha, .inl rfl⟩
  cases g with
  | none => exact .some single
  | some old =>
    have hold := hg old rfl
    simp only [Furthest.miss]
    split
    · exact .some single
    · split
      · exact .some hold
      · have hpos : old.pos = k := by omega
        subst hpos
        split
        · exact .some hold
        · next items found hcause =>
          obtain ⟨-, hold⟩ := hold
          rw [hcause] at hold
          obtain ⟨-, hitems, hfound⟩ := hold
          refine .some ⟨hk, ?_, ?_, ?_⟩
          · split
            · next hmem => exact List.ne_nil_of_mem hmem
            · simp
          · split
            · exact hitems
            · rintro i hi
              rcases List.mem_append.mp hi with hi | hi
              · exact hitems i hi
              · exact List.mem_singleton.mp hi ▸ ha
          · rcases hfound with rfl | ⟨rfl, -⟩
            · exact .inl (by cases ts[old.pos]? <;> rfl)
            · exact .inl rfl

theorem Justified.merge (hg : g.Justified ts) (hh : h.Justified ts) :
    (g.merge h).Justified ts := by
  cases g with
  | none => exact hh
  | some old =>
    cases h with
    | none => exact hg
    | some other =>
      obtain ⟨hpos, hold⟩ := hg old rfl
      obtain ⟨-, hother⟩ := hh other rfl
      simp only [Furthest.merge]
      split
      · exact hh
      · split
        · exact hg
        · have heq : other.pos = old.pos := by omega
          rw [heq] at hother
          refine .some ⟨hpos, ?_⟩
          cases hc : old.cause with
          | badEscape => rwa [hc] at hold
          | expected xs found =>
            cases hd : other.cause with
            | badEscape => rwa [hd] at hother
            | expected ys _ =>
              rw [hc] at hold
              rw [hd] at hother
              obtain ⟨hne, hxs, hfound⟩ := hold
              obtain ⟨-, hys, -⟩ := hother
              refine ⟨?_, fun i hi => (mem_joinItems.mp hi).elim (hxs i) (hys i), hfound⟩
              obtain ⟨x, hx⟩ := List.exists_mem_of_ne_nil xs hne
              exact List.ne_nil_of_mem (mem_joinItems.mpr (.inl hx))

theorem Justified.rename (hv : Viable (ts.take k)) (hg : g.Justified ts) :
    (g.rename phrase k).Justified ts := by
  cases g with
  | none => exact hg
  | some f =>
    obtain ⟨hpos, hf⟩ := hg f rfl
    simp only [Furthest.rename]
    split
    · next heq =>
      subst heq
      refine .some ⟨hpos, List.cons_ne_nil _ _, List.forall_mem_singleton.mpr hv, ?_⟩
      cases hc : f.cause with
      | badEscape =>
        rw [hc] at hf
        exact .inr ⟨rfl, hf.2⟩
      | expected items found =>
        rw [hc] at hf
        exact hf.2.2
    · exact hg

end Furthest

/-! ## One outcome -/

namespace Outcome

variable {σ α β : Type}

/-- What an attempt at token number `k` may do; `keeps` is about the marks made before it. -/
structure Reports (ts : List Token) (c : Prop) (L : Language Word) (k : Nat)
    (o : Outcome σ α) : Prop where
  lands : ∀ a j, o.result = some (a, j) → ∃ us ∈ L, Spans (place ts k) us j
  reports : ∀ g : Furthest, g.Justified ts → (o.note g).Justified ts
  keeps : ∀ (m : Nat) (g : Furthest), c ∨ m ≤ k → g.Past m → (o.note g).Past m
  marks : o.result = none → ∀ g, (o.note g).Past k

theorem Reports.mono {o : Outcome σ α} (h : o.Reports ts c L k) (hle : L ≤ M) :
    o.Reports ts c M k where
  lands a j hr := by
    obtain ⟨us, hus, hs⟩ := h.lands a j hr
    exact ⟨us, hle hus, hs⟩
  reports := h.reports
  keeps := h.keeps
  marks := h.marks

/-- The second attempt starts behind what the first has read, or where the first did. -/
theorem Reports.after {first : Outcome σ α} {second : Outcome σ β} {us : List Word}
    (h : first.Reports ts c L k) (hus : us ∈ N) (hs : Spans (place ts k) us (place ts m))
    (h' : second.Reports ts c M m) : (second.after first).Reports ts c (N * M) k where
  lands a j hr := by
    obtain ⟨vs, hvs, hs'⟩ := h'.lands a j hr
    exact ⟨us ++ vs, Language.append_mem_mul hus hvs, hs.append hs'⟩
  reports g hg := h'.reports _ (h.reports g hg)
  keeps l g hl hg := by
    have hm : m = k + us.length := congrArg Input.pos hs.eq_place
    exact h'.keeps l _ (hl.imp id fun h => by omega) (h.keeps l g hl hg)
  marks hr g := by
    have hm : m = k + us.length := congrArg Input.pos hs.eq_place
    exact (h'.marks hr _).mono (by omega)

/-- The second attempt starts where the first did. -/
theorem Reports.retry {first : Outcome σ α} {second : Outcome σ β} (h : first.Reports ts c L k)
    (h' : second.Reports ts c M k) : (second.after first).Reports ts c M k := by
  have both := h.after (N := 1) rfl (.nil _) h'
  rwa [one_mul] at both

end Outcome

namespace Parser

variable {σ α β : Type} {p q : Parser σ α}

def Reports (p : Parser σ α) (ts : List Token) (c : Prop) (L : Language Word) (k : Nat) : Prop :=
  Welcome ts L k → ∀ s, (p (place ts k) s).Reports ts c L k

theorem Reports.mono (h : p.Reports ts c L k) (hle : L ≤ M) : p.Reports ts c M k :=
  fun hw s => (h (hw.mono hle) s).mono hle

theorem Reports.loose (h : p.Reports ts True L k) : p.Reports ts c L k := fun hw s =>
  { h hw s with keeps := fun m g _ => (h hw s).keeps m g (.inl trivial) }

/-! ### Parsers that take no token -/

/-- Takes no token, cannot fail and leaves no mark. -/
def Silent (p : Parser σ α) : Prop := ∀ i s, ∃ a t, p i s = ⟨some (a, i), t, id⟩

theorem silent_pure (a : α) : (pure a : Parser σ α).Silent := fun _ s => ⟨a, s, rfl⟩

theorem silent_position : (position : Parser σ Nat).Silent := fun i s => ⟨i.pos, s, rfl⟩

theorem silent_build (f : Nat → σ → α × σ) : (build f).Silent :=
  fun i s => ⟨(f i.pos s).1, (f i.pos s).2, rfl⟩

theorem Silent.bind {f : α → Parser σ β} (hp : p.Silent) (hf : ∀ a, (f a).Silent) :
    (p >>= f).Silent := by
  intro i s
  obtain ⟨a, t, h⟩ := hp i s
  obtain ⟨b, u, h'⟩ := hf a i t
  refine ⟨b, u, ?_⟩
  simp only [Bind.bind, Parser.bind, h, h']
  rfl

theorem silent_typeNode (ty : Ty) (index : Nat) : (typeNode ty index).Silent := by
  cases ty with
  | named name => exact (silent_build _).bind fun _ => silent_build _
  | _ => exact fun _ _ => ⟨_, _, rfl⟩

theorem Silent.reports (h : p.Silent) : p.Reports ts c 1 k := by
  intro _ s
  obtain ⟨a, t, h⟩ := h (place ts k) s
  rw [h]
  exact
    { lands := by
        rintro _ _ ⟨⟩
        exact ⟨[], rfl, .nil _⟩
      reports := fun _ hg => hg
      keeps := fun _ _ _ hg => hg
      marks := nofun }

/-! ### Single tokens -/

theorem satisfy_place (item : Item) (f : Token → Option α) (s : σ) :
    satisfy item f (place ts k) s =
      match ts[k]? >>= f with
      | some a => ⟨some (a, place ts (k + 1)), s, id⟩
      | none => ⟨none, s, fun g => g.miss k item ts[k]?⟩ := by
  by_cases hk : k < ts.length
  · simp only [satisfy, place, List.drop_eq_getElem_cons hk, List.getElem?_eq_getElem hk]
    cases h : f ts[k] <;> simp [h, List.getElem?_eq_getElem hk]
  · simp [satisfy, place, List.drop_eq_nil_of_le (Nat.le_of_not_lt hk),
      List.getElem?_eq_none (Nat.le_of_not_lt hk)]

/-- A token is read as a phrase of one word, where `item` is admitted. -/
theorem reports_satisfy {item : Item} {f : Token → Option α}
    (hf : ∀ t a, f t = some a → ∃ w, t.word? = some w ∧ [w] ∈ L)
    (hitem : Welcome ts L k → Admits ts k item) :
    (satisfy item f : Parser σ α).Reports ts c L k := by
  intro hw s
  rw [satisfy_place]
  split
  · next a ha =>
    obtain ⟨t, ht, hta⟩ := Option.bind_eq_some_iff.mp ha
    obtain ⟨w, hword, hL⟩ := hf t a hta
    have hspans : Spans (place ts k) [w] (place ts (k + 1)) :=
      .cons (takes_place.mpr ⟨ht, rfl⟩) hword (.nil _)
    exact
      { lands := by
          rintro _ _ ⟨⟩
          exact ⟨[w], hL, hspans⟩
        reports := fun _ hg => hg
        keeps := fun _ _ _ hg => hg
        marks := by rintro ⟨⟩ }
  · exact
      { lands := by rintro _ _ ⟨⟩
        reports := fun g hg => hg.miss hw.1 (hitem hw)
        keeps := fun m g _ hg => hg.miss
        marks := fun _ g => Furthest.past_miss }

theorem reports_token {t : Token} {w : Word} (hw : t.word? = some w) :
    (token t : Parser σ Unit).Reports ts c {[w]} k := by
  refine reports_satisfy (fun u a hu => ?_) fun h => h.admits_token rfl hw
  split at hu
  · next heq => exact ⟨w, heq ▸ hw, rfl⟩
  · cases hu

theorem reports_symbol (x : Symbol) : (symbol x : Parser σ Unit).Reports ts c {[.symbol x]} k :=
  reports_token rfl

theorem reports_keyword (x : Keyword) :
    (keyword x : Parser σ Unit).Reports ts c {[.keyword x]} k :=
  reports_token rfl

theorem reports_select {f : Token → Option α} (hL : ∃ ws, ws ∈ L)
    (hf : ∀ t a, f t = some a → ∃ w, t.word? = some w ∧ [w] ∈ L) :
    (select f : Parser σ α).Reports ts c L k :=
  reports_satisfy hf fun h => h.viable hL

theorem decoded_place (decode : String → Option α) (s : σ) :
    decoded decode (place ts k) s =
      match ts[k]? with
      | some (.string raw) =>
        match decode raw with
        | some a => ⟨some (a, place ts (k + 1)), s, id⟩
        | none => ⟨none, s, fun g => g.merge (some ⟨k, .badEscape⟩)⟩
      | other => ⟨none, s, fun _ => Furthest.miss none k .somethingElse other⟩ := by
  by_cases hk : k < ts.length
  · simp only [decoded, place, List.drop_eq_getElem_cons hk, List.getElem?_eq_getElem hk]
    cases ts[k] <;> rfl
  · simp [decoded, place, List.drop_eq_nil_of_le (Nat.le_of_not_lt hk),
      List.getElem?_eq_none (Nat.le_of_not_lt hk)]

/-- A string is read as a phrase of one word; where none stands, the marks behind are lost. -/
theorem reports_decoded {decode : String → Option α} (hL : ∃ ws, ws ∈ L)
    (hgood : ∀ raw a, decode raw = some a → ∃ w, (Token.string raw).word? = some w ∧ [w] ∈ L)
    (hbad : ∀ raw, decode raw = none → Escape.unquote? raw = none) :
    (decoded decode : Parser σ α).Reports ts False L k := by
  intro hw s
  rw [decoded_place]
  split
  · next raw ht =>
    split
    · next a ha =>
      obtain ⟨w, hword, hmem⟩ := hgood raw a ha
      have hspans : Spans (place ts k) [w] (place ts (k + 1)) :=
        .cons (takes_place.mpr ⟨ht, rfl⟩) hword (.nil _)
      exact
        { lands := by
            rintro _ _ ⟨⟩
            exact ⟨[w], hmem, hspans⟩
          reports := fun _ hg => hg
          keeps := fun _ _ _ hg => hg
          marks := by rintro ⟨⟩ }
    · next ha =>
      have hmark : Failure.Justified ts ⟨k, .badEscape⟩ :=
        ⟨hw.1, hw.viable hL, _, ht, raw, rfl, hbad raw ha⟩
      exact
        { lands := by rintro _ _ ⟨⟩
          reports := fun _ hg => hg.merge (.some hmark)
          keeps := fun _ _ _ hg => hg.merge_left
          marks := fun _ _ => Furthest.Past.merge_right ⟨_, rfl, Nat.le_refl k⟩ }
  · have hitem : Admits ts k .somethingElse := hw.viable hL
    exact
      { lands := by rintro _ _ ⟨⟩
        reports := fun _ _ => Furthest.justified_none.miss hw.1 hitem
        keeps := fun m _ hm _ => (Furthest.past_miss (g := none)).mono (hm.resolve_left id)
        marks := fun _ _ => Furthest.past_miss (g := none) }

/-! ### Sequences -/

section

variable {f : α → Parser σ β}

theorem Reports.bind (hp : p.Reports ts c L k)
    (hf : ∀ a us, us ∈ L → Spans (place ts k) us (place ts (k + us.length)) →
      (f a).Reports ts c M (k + us.length))
    (hM : ∃ vs, vs ∈ M) : (p >>= f).Reports ts c (L * M) k := by
  intro hw s
  have first := hp (hw.left hM) s
  cases hr : (p (place ts k) s).result with
  | none =>
    rw [bind_of_none hr]
    exact
      { lands := nofun
        reports := first.reports
        keeps := first.keeps
        marks := fun _ => first.marks hr }
  | some r =>
    obtain ⟨us, hus, hs⟩ := first.lands r.1 r.2 hr
    have hj := hs.eq_place
    rw [hj] at hs
    rw [bind_of_some hr, hj]
    exact first.after hus hs (hf r.1 us hus hs (hw.right hus hs) _)

end

theorem Reports.position {f : Nat → Parser σ α} (h : (f k).Reports ts c L k) :
    (Parser.position >>= f).Reports ts c L k := h

theorem Reports.then_silent {f : α → Parser σ β} (hp : p.Reports ts c L k)
    (hf : ∀ a, (f a).Silent) : (p >>= f).Reports ts c L k := by
  have h : (p >>= f).Reports ts c (L * 1) k :=
    hp.bind (fun a us _ _ => (hf a).reports) ⟨[], rfl⟩
  rwa [mul_one] at h

theorem Reports.map (hp : p.Reports ts c L k) (f : α → β) : (f <$> p).Reports ts c L k :=
  hp.then_silent fun a => silent_pure (f a)

theorem Reports.between {opening closing : Symbol}
    (hp : Spans (place ts k) [.symbol opening] (place ts (k + 1)) → p.Reports ts c L (k + 1))
    (hL : ∃ ws, ws ∈ L) : (between opening p closing).Reports ts c
      ({[.symbol opening]} * (L * {[.symbol closing]})) k := by
  refine (reports_symbol opening).bind (fun _ us hus hs => ?_) ?_
  · obtain rfl := hus
    refine (hp hs).bind (fun a us _ _ => ?_) ⟨_, rfl⟩
    exact (reports_symbol closing).then_silent fun _ => silent_pure a
  · obtain ⟨ws, hws⟩ := hL
    exact ⟨_, Language.append_mem_mul hws rfl⟩

/-! ### Alternatives -/

theorem Reports.orElse (hp : p.Reports ts c L k) (hq : q.Reports ts c M k) :
    (orElse p q).Reports ts c (L + M) k := by
  intro hw s
  have first := hp (hw.mono le_self_add) s
  cases hr : (p (place ts k) s).result with
  | none =>
    have second := hq (hw.mono le_add_self) (p (place ts k) s).state
    rw [orElse_of_none hr]
    exact (first.retry second).mono le_add_self
  | some r =>
    rw [orElse_of_some hr]
    exact first.mono le_self_add

/-- The last alternative. -/
theorem Reports.orElse_fail (hp : p.Reports ts c L k) :
    (Parser.orElse p fail).Reports ts c L k := by
  intro hw s
  have first := hp hw s
  cases hr : (p (place ts k) s).result with
  | none =>
    rw [orElse_of_none hr]
    exact
      { lands := nofun
        reports := first.reports
        keeps := first.keeps
        marks := fun _ => first.marks hr }
  | some r =>
    rw [orElse_of_some hr]
    exact first

/-- Alternatives for one language. -/
theorem reports_choice {ps : List (Parser σ α)} (hne : ps ≠ [])
    (h : ∀ p ∈ ps, p.Reports ts c L k) : (choice ps).Reports ts c L k := by
  induction ps with
  | nil => exact absurd rfl hne
  | cons p ps ih =>
    obtain ⟨hp, hps⟩ := List.forall_mem_cons.mp h
    cases ps with
    | nil => exact hp.orElse_fail
    | cons q ps => exact (hp.orElse (ih (List.cons_ne_nil _ _) hps)).mono (add_idem L).le

theorem Reports.optional (hp : p.Reports ts c L k) :
    (Parser.optional p).Reports ts c (L + 1) k :=
  (hp.map some).orElse (silent_pure none).reports

section

variable {f : Option α → Parser σ β}

/-- What follows may depend on whether `p` was there. -/
theorem Reports.branch (hp : p.Reports ts c L k)
    (hsome : ∀ a us, us ∈ L → Spans (place ts k) us (place ts (k + us.length)) →
      (f (some a)).Reports ts c M (k + us.length))
    (hM : ∃ vs, vs ∈ M) (hnone : (f none).Reports ts c N k) :
    (Parser.optional p >>= f).Reports ts c (L * M + N) k := by
  intro hw s
  have first := hp ((hw.mono le_self_add).left hM) s
  cases hr : (p (place ts k) s).result with
  | none =>
    have second := hnone (hw.mono le_add_self) (p (place ts k) s).state
    rw [optional_bind_of_none hr]
    exact (first.retry second).mono le_add_self
  | some r =>
    obtain ⟨us, hus, hs⟩ := first.lands r.1 r.2 hr
    have hj := hs.eq_place
    rw [hj] at hs
    rw [optional_bind_of_some hr, hj]
    have second := hsome r.1 us hus hs ((hw.mono le_self_add).right hus hs) (p (place ts k) s).state
    exact (first.after hus hs second).mono le_self_add

end

/-! ### Repetition -/

theorem reports_manyWithin (hp : ∀ m, k ≤ m → p.Reports ts c L m) (fuel : Nat) :
    ∀ m, k ≤ m → (manyWithin p fuel).Reports ts c (L∗) m := by
  induction fuel with
  | zero => exact fun m _ => (silent_pure []).reports.mono one_le_kstar
  | succ fuel ih =>
    intro m hm
    have h : (manyWithin p (fuel + 1)).Reports ts c (L * L∗ + 1) m := by
      refine (hp m hm).branch (fun a us _ _ => ?_) ⟨[], L.nil_mem_kstar⟩ (silent_pure []).reports
      exact (ih _ (by omega)).then_silent fun _ => silent_pure _
    rwa [add_comm (L * L∗), Language.one_add_self_mul_kstar_eq_kstar] at h

theorem Reports.many (hp : ∀ m, k ≤ m → p.Reports ts c L m) : (many p).Reports ts c (L∗) k :=
  reports_manyWithin hp _ k (Nat.le_refl k)

theorem Reports.separatedBy {separator : Parser σ Unit} {S : Language Word}
    (hp : ∀ m, k ≤ m → p.Reports ts c L m) (hL : ∃ ws, ws ∈ L)
    (hs : ∀ m, separator.Reports ts c S m) :
    (separatedBy p separator).Reports ts c (L * (S * L)∗ + 1) k := by
  refine (hp k (Nat.le_refl k)).branch (fun a us _ _ => ?_) ⟨[], Language.nil_mem_kstar _⟩
    (silent_pure []).reports
  have item : ∀ m, k ≤ m → (do separator; p : Parser σ α).Reports ts c (S * L) m := fun m hm =>
    (hs m).bind (fun _ _ _ _ => hp _ (by omega)) hL
  exact (Reports.many fun m hm => item m (by omega)).then_silent fun _ => silent_pure _

theorem reports_extendWithin {step : α → Parser σ α}
    (hp : ∀ a m, k ≤ m → (step a).Reports ts c L m) (fuel : Nat) :
    ∀ a m, k ≤ m → (extendWithin step fuel a).Reports ts c (L∗) m := by
  induction fuel with
  | zero => exact fun a m _ => (silent_pure a).reports.mono one_le_kstar
  | succ fuel ih =>
    intro a m hm
    have h : (extendWithin step (fuel + 1) a).Reports ts c (L * L∗ + 1) m :=
      (hp a m hm).branch (fun b us _ _ => ih b _ (by omega)) ⟨[], L.nil_mem_kstar⟩
        (silent_pure a).reports
    rwa [add_comm (L * L∗), Language.one_add_self_mul_kstar_eq_kstar] at h

theorem Reports.extend {step : α → Parser σ α} (hp : ∀ a m, k ≤ m → (step a).Reports ts c L m)
    (a : α) : (extend step a).Reports ts c (L∗) k :=
  reports_extendWithin hp _ a k (Nat.le_refl k)

theorem Reports.named (hp : p.Reports ts c L k) (hL : ∃ ws, ws ∈ L) (phrase : Phrase) :
    (named phrase p).Reports ts True L k := by
  intro hw s
  have inner := hp hw s
  have hrecord : (((p (place ts k) s).note none).rename phrase k).Justified ts :=
    (inner.reports none Furthest.justified_none).rename (hw.viable hL)
  exact
    { lands := inner.lands
      reports := fun g hg => hg.merge hrecord
      keeps := fun _ _ _ hg => hg.merge_left
      marks := fun hr _ => (inner.marks hr none).rename.merge_right }

end Parser

end FlatScope.Grammar
