import FlatScope.Proofs.Reports

/-!
# Two runs on token lists that begin alike

A parser runs on `ts` and on `ts'`, which have their first `n` tokens in common. `Outcome.Meets`
compares the outcomes: they are in step, both failed or both read up to the same place, or the run
on `ts` went past the common tokens, and then its record says so. `B` tells the places where a run
may stop short of its marks. `p.Tracks p'` joins this to what `p` reports, for parsers that keep
every mark, and has one rule a combinator.
-/

namespace FlatScope.Grammar

open scoped Computability

variable {ts ts' : List Token} {n k m : Nat} {L M N : Language Word} {B C : Nat → Prop} {c : Prop}

theorem getElem?_eq_of_take (h : ts.take n = ts'.take n) (hk : k < n) : ts[k]? = ts'[k]? := by
  have := congrArg (·[k]?) h
  simpa [List.getElem?_take, hk] using this

namespace Outcome

variable {σ α β : Type} {o o' : Outcome σ α}

theorem pos_eq_of_result {o : Outcome σ α} {a b : α} (h : o.result = some (a, place ts k))
    (h' : o.result = some (b, place ts m)) : k = m := by
  obtain ⟨-, hj⟩ := Prod.mk.inj (Option.some.inj (h.symm.trans h'))
  exact congrArg Input.pos hj

/-- Both failed, or both read up to the same place among the first `n` tokens. -/
inductive InStep (ts ts' : List Token) (n : Nat) (o o' : Outcome σ α) : Prop where
  | fail (h : o.result = none) (h' : o'.result = none)
  | read {a a' : α} {m : Nat} (h : o.result = some (a, place ts m))
      (h' : o'.result = some (a', place ts' m)) (hm : m ≤ n)

/--
In step, or past the first `n` tokens: what failed has left a mark there, and what was read ends
behind them or at a place where `B` holds, with such a mark.
-/
inductive Meets (ts ts' : List Token) (n : Nat) (B : Nat → Prop) (o o' : Outcome σ α) : Prop where
  | inStep (h : o.InStep ts ts' n o')
  | past (hfail : o.result = none → ∀ g, (o.note g).Past n)
      (hread : ∀ a m, o.result = some (a, place ts m) →
        n < m ∨ B m ∧ ∀ g, (o.note g).Past n)

theorem Meets.mono (h : o.Meets ts ts' n B o') (hB : ∀ m, B m → C m) : o.Meets ts ts' n C o' := by
  cases h with
  | inStep h => exact .inStep h
  | past hfail hread =>
    exact .past hfail fun a m hr => (hread a m hr).imp id fun ⟨hm, hg⟩ => ⟨hB m hm, hg⟩

/-- What went before leaves the comparison as it is. -/
theorem Meets.after {second second' : Outcome σ β} (h : second.Meets ts ts' n B second')
    (first first' : Outcome σ α) :
    (second.after first).Meets ts ts' n B (second'.after first') := by
  cases h with
  | inStep h =>
    cases h with
    | fail h h' => exact .inStep (.fail h h')
    | read h h' hm => exact .inStep (.read h h' hm)
  | past hfail hread =>
    refine .past (fun hr g => hfail hr _) fun a m hr => ?_
    exact (hread a m hr).imp id fun ⟨hm, hg⟩ => ⟨hm, fun g => hg _⟩

/-- Once beyond the first `n` tokens, a run stays there. -/
theorem meets_of_lt {first : Outcome σ α} {second o' : Outcome σ β}
    (h' : second.Reports ts c L m) (h : n < m) : (second.after first).Meets ts ts' n C o' := by
  refine .past (fun hr g => (h'.marks hr _).mono (Nat.le_of_lt h)) fun b l hr => .inl ?_
  obtain ⟨us, -, hs⟩ := h'.lands b _ hr
  have hl : l = m + us.length := congrArg Input.pos hs.eq_place
  omega

/-- Keeps a mark past the first `n` tokens, or reads beyond them. -/
def Settles (ts : List Token) (n : Nat) (B : Nat → Prop) (o : Outcome σ α) : Prop :=
  (o.result = none → ∀ g, g.Past n → (o.note g).Past n) ∧
    ∀ a m, o.result = some (a, place ts m) →
      n < m ∨ B m ∧ ∀ g, g.Past n → (o.note g).Past n

theorem Settles.meets {first : Outcome σ α} {second o' : Outcome σ β}
    (h : second.Settles ts n B) (hfirst : ∀ g, (first.note g).Past n) :
    (second.after first).Meets ts ts' n B o' :=
  .past (fun hr g => h.1 hr _ (hfirst g)) fun b l hr =>
    (h.2 b l hr).imp id fun ⟨hB, hg⟩ => ⟨hB, fun g => hg _ (hfirst g)⟩

theorem Reports.settles {o : Outcome σ α} (h : o.Reports ts True L k) :
    o.Settles ts n fun _ => True :=
  ⟨fun _ g => h.keeps n g (.inl trivial), fun _ _ _ =>
    .inr ⟨trivial, fun g => h.keeps n g (.inl trivial)⟩⟩

end Outcome

namespace Parser

variable {σ α β : Type} {p p' q q' : Parser σ α}

def InStep (p : Parser σ α) (ts ts' : List Token) (n k : Nat) (p' : Parser σ α) : Prop :=
  ∀ s s', (p (place ts k) s).InStep ts ts' n (p' (place ts' k) s')

def Meets (p : Parser σ α) (ts ts' : List Token) (n : Nat) (B : Nat → Prop) (k : Nat)
    (p' : Parser σ α) : Prop :=
  ∀ s s', (p (place ts k) s).Meets ts ts' n B (p' (place ts' k) s')

theorem InStep.meets (h : p.InStep ts ts' n k p') : p.Meets ts ts' n B k p' :=
  fun s s' => .inStep (h s s')

theorem Meets.mono (h : p.Meets ts ts' n B k p') (hB : ∀ m, B m → C m) :
    p.Meets ts ts' n C k p' := fun s s' => (h s s').mono hB

theorem inStep_of_refuses (h : p.Refuses (place ts k)) (h' : p'.Refuses (place ts' k)) :
    p.InStep ts ts' n k p' := fun s s' => .fail (h s).1 (h' s').1

/-- At the first token that may differ a parser goes past it, whatever it does. -/
theorem meets_of_reports (h : p.Reports ts c L n) (hw : Welcome ts L n) (hL : [] ∉ L) :
    p.Meets ts ts' n B n p' := by
  intro s s'
  refine .past (h hw s).marks fun a m hr => .inl ?_
  obtain ⟨us, hus, hs⟩ := (h hw s).lands a _ hr
  have hm : m = n + us.length := congrArg Input.pos hs.eq_place
  have : us ≠ [] := fun eq => hL (eq ▸ hus)
  have := List.length_pos_iff.mpr this
  omega

/-! ### Single tokens and no tokens -/

section

variable (hts : ts.take n = ts'.take n)

include hts

theorem inStep_satisfy {item : Item} {f : Token → Option α} (hk : k < n) :
    (satisfy item f : Parser σ α).InStep ts ts' n k (satisfy item f) := by
  intro s s'
  rw [satisfy_place, satisfy_place, ← getElem?_eq_of_take hts hk]
  split
  · exact .read rfl rfl hk
  · exact .fail rfl rfl

theorem inStep_decoded {decode : String → Option α} (hk : k < n) :
    (decoded decode : Parser σ α).InStep ts ts' n k (decoded decode) := by
  intro s s'
  rw [decoded_place, decoded_place, ← getElem?_eq_of_take hts hk]
  split
  · split
    · exact .read rfl rfl hk
    · exact .fail rfl rfl
  · exact .fail rfl rfl

end

theorem nil_notMem_word (w : Word) : [] ∉ ({[w]} : Language Word) :=
  fun h => nomatch (h : [] = [w])

theorem meets_satisfy (hts : ts.take n = ts'.take n) {item : Item} {f : Token → Option α}
    (hr : (satisfy item f : Parser σ α).Reports ts True L k) (hL : [] ∉ L) (hw : Welcome ts L k)
    (hk : k ≤ n) : (satisfy item f : Parser σ α).Meets ts ts' n B k (satisfy item f) := by
  rcases Nat.lt_or_eq_of_le hk with hk | rfl
  · exact (inStep_satisfy hts hk).meets
  · exact meets_of_reports hr hw hL

theorem Silent.inStep (h : p.Silent) (h' : p'.Silent) (hk : k ≤ n) :
    p.InStep ts ts' n k p' := by
  intro s s'
  obtain ⟨a, t, h⟩ := h (place ts k) s
  obtain ⟨a', t', h'⟩ := h' (place ts' k) s'
  rw [h, h']
  exact .read rfl rfl hk

/-! ### Rules for any parser -/

/-- Behind a place where the first parser may stop short of its marks, `f` must keep them. -/
theorem Meets.bind {f f' : α → Parser σ β} {d : Prop} (hw : Welcome ts (L * M) k)
    (hM : ∃ vs, vs ∈ M) (hr : p.Reports ts c L k) (hp : p.Meets ts ts' n B k p')
    (hfr : ∀ a us, us ∈ L → Spans (place ts k) us (place ts (k + us.length)) →
      (f a).Reports ts d M (k + us.length))
    (hf : ∀ a a' us, us ∈ L → Spans (place ts k) us (place ts (k + us.length)) →
      k + us.length ≤ n → Welcome ts M (k + us.length) →
      (f a).Meets ts ts' n C (k + us.length) (f' a'))
    (hB : ∀ a us, us ∈ L → Spans (place ts k) us (place ts (k + us.length)) →
      Welcome ts M (k + us.length) → B (k + us.length) →
      ∀ s, (f a (place ts (k + us.length)) s).Settles ts n C) :
    (p >>= f).Meets ts ts' n C k (p' >>= f') := by
  intro s s'
  have first := hr (hw.left hM) s
  cases hp s s' with
  | inStep h =>
    cases h with
    | fail h h' =>
      rw [bind_of_none h, bind_of_none h']
      exact .inStep (.fail rfl rfl)
    | @read a a' m h h' hm =>
      obtain ⟨us, hus, hs⟩ := first.lands a _ h
      obtain rfl : m = k + us.length := congrArg Input.pos hs.eq_place
      rw [bind_of_some h, bind_of_some h']
      exact (hf a a' us hus hs hm (hw.right hus hs) _ _).after _ _
  | past hfail hread =>
    cases hres : (p (place ts k) s).result with
    | none =>
      rw [bind_of_none hres]
      exact .past (fun _ => hfail hres) nofun
    | some r =>
      obtain ⟨a, j⟩ := r
      obtain ⟨us, hus, hs⟩ := first.lands a j hres
      obtain rfl := hs.eq_place
      have hrest := hw.right hus hs
      rw [bind_of_some hres]
      rcases hread a _ hres with hlt | ⟨hstop, hg⟩
      · exact Outcome.meets_of_lt (hfr a us hus hs hrest _) hlt
      · exact (hB a us hus hs hrest hstop _).meets hg

theorem Meets.position {f f' : Nat → Parser σ α} (h : (f k).Meets ts ts' n B k (f' k)) :
    (Parser.position >>= f).Meets ts ts' n B k (Parser.position >>= f') := h

/-- A token that is there is taken on both sides. -/
theorem Meets.token_then (hts : ts.take n = ts'.take n) {t : Token} {w : Word}
    (hword : t.word? = some w) {f f' : Unit → Parser σ β} (hw : Welcome ts ({[w]} * M) k)
    (hM : ∃ vs, vs ∈ M) (hk : k ≤ n) (hfr : (f ()).Reports ts c M (k + 1))
    (hf : k + 1 ≤ n → Welcome ts M (k + 1) → (f ()).Meets ts ts' n C (k + 1) (f' ())) :
    (token t >>= f).Meets ts ts' n C k (token t >>= f') := by
  refine Meets.bind (B := fun _ => False) (d := c) hw hM (reports_token (c := True) hword)
    (meets_satisfy hts (reports_token hword) (nil_notMem_word w) (hw.left hM) hk) ?_ ?_
    fun _ _ _ _ _ h => h.elim
  · rintro _ us rfl _
    exact hfr
  · rintro _ _ us rfl _
    exact hf

theorem Meets.then_silent {f f' : α → Parser σ β} (hp : p.Meets ts ts' n B k p')
    (hf : ∀ a, (f a).Silent) (hf' : ∀ a, (f' a).Silent) :
    (p >>= f).Meets ts ts' n B k (p' >>= f') := by
  intro s s'
  cases hp s s' with
  | inStep h =>
    cases h with
    | fail h h' =>
      rw [bind_of_none h, bind_of_none h']
      exact .inStep (.fail rfl rfl)
    | @read a a' m h h' hm =>
      rw [bind_of_some h, bind_of_some h']
      exact Outcome.Meets.after (.inStep ((hf a).inStep (hf' a') hm _ _)) _ _
  | past hfail hread =>
    cases hres : (p (place ts k) s).result with
    | none =>
      rw [bind_of_none hres]
      exact .past (fun _ => hfail hres) nofun
    | some r =>
      obtain ⟨a, j⟩ := r
      obtain ⟨b, t, hb⟩ := hf a j (p (place ts k) s).state
      rw [bind_of_some hres, hb]
      refine .past nofun ?_
      rintro _ m ⟨⟩
      exact hread a m hres

theorem Meets.named (hp : p.Meets ts ts' n B k p') (phrase : Phrase) :
    (named phrase p).Meets ts ts' n B k (named phrase p') := by
  intro s s'
  cases hp s s' with
  | inStep h =>
    cases h with
    | fail h h' => exact .inStep (.fail h h')
    | read h h' hm => exact .inStep (.read h h' hm)
  | past hfail hread =>
    refine .past (fun hres g => (hfail hres none).rename.merge_right) fun a m hres => ?_
    exact (hread a m hres).imp id fun ⟨hm, hg⟩ => ⟨hm, fun g => (hg none).rename.merge_right⟩

/-- What is read among the common tokens alone can be read again. -/
theorem Meets.of_reread (hp : p.Meets ts ts' n B k p')
    (h : ∀ s s' a m, (p (place ts k) s).result = some (a, place ts m) → m ≤ n →
      ∃ a', (p' (place ts' k) s').result = some (a', place ts' m)) :
    p.Meets ts ts' n C k p' := by
  intro s s'
  cases hp s s' with
  | inStep h => exact .inStep h
  | past hfail hread =>
    by_cases hshort : ∃ a m, (p (place ts k) s).result = some (a, place ts m) ∧ m ≤ n
    · obtain ⟨a, m, hres, hm⟩ := hshort
      obtain ⟨a', hres'⟩ := h s s' a m hres hm
      exact .inStep (.read hres hres' hm)
    · refine .past hfail fun a m hres => .inl ?_
      exact Nat.lt_of_not_le fun hm => hshort ⟨a, m, hres, hm⟩

/-- A second alternative counts where the first is in step. -/
theorem InStep.orElse (hp : p.InStep ts ts' n k p') (hq : q.Meets ts ts' n B k q') :
    (orElse p q).Meets ts ts' n B k (orElse p' q') := by
  intro s s'
  cases hp s s' with
  | fail h h' =>
    rw [orElse_of_none h, orElse_of_none h']
    exact (hq _ _).after _ _
  | read h h' hm =>
    rw [orElse_of_some h, orElse_of_some h']
    exact .inStep (.read h h' hm)

/-- No other alternative counts where the first is sure to be read. -/
theorem Meets.orElse_of_reads (hp : p.Meets ts ts' n B k p')
    (hsome : ∀ s, (p (place ts k) s).result ≠ none) :
    (Parser.orElse p q).Meets ts ts' n B k (Parser.orElse p' q') := by
  intro s s'
  obtain ⟨r, hr⟩ := Option.ne_none_iff_exists'.mp (hsome s)
  rw [orElse_of_some hr]
  cases hp s s' with
  | inStep h =>
    cases h with
    | fail h => exact absurd h (hsome s)
    | read h h' hm =>
      rw [orElse_of_some h']
      exact .inStep (.read h h' hm)
  | past hfail hread => exact .past hfail hread

/-- The mark of a run that went past the first `n` tokens stays. -/
def Retains (p : Parser σ α) (ts : List Token) (n k : Nat) : Prop :=
  ∀ s g, g.Past n → ((p (place ts k) s).note g).Past n

theorem Reports.retains (h : p.Reports ts True L k) (hw : Welcome ts L k) : p.Retains ts n k :=
  fun s g hg => (h hw s).keeps n g (.inl trivial) hg

theorem retains_choice {ps : List (Parser σ α)} (h : ∀ p ∈ ps, p.Retains ts n k) :
    (choice ps).Retains ts n k := by
  induction ps with
  | nil => exact fun s g hg => hg
  | cons p ps ih =>
    obtain ⟨hp, hps⟩ := List.forall_mem_cons.mp h
    intro s g hg
    show ((orElse p (choice ps) (place ts k) s).note g).Past n
    cases hr : (p (place ts k) s).result with
    | none =>
      rw [orElse_of_none hr]
      exact ih hps _ _ (hp s g hg)
    | some r =>
      rw [orElse_of_some hr]
      exact hp s g hg

/-- A second alternative comes after the first has failed, in step with `p'` or past it. -/
theorem Meets.orElse (hp : p.Meets ts ts' n B k p') (hq : q.Meets ts ts' n B k q')
    (hs : ∀ s, (q (place ts k) s).Settles ts n B) :
    (Parser.orElse p q).Meets ts ts' n B k (Parser.orElse p' q') := by
  intro s s'
  cases hp s s' with
  | inStep h =>
    cases h with
    | fail h h' =>
      rw [orElse_of_none h, orElse_of_none h']
      exact (hq _ _).after _ _
    | read h h' hm =>
      rw [orElse_of_some h, orElse_of_some h']
      exact .inStep (.read h h' hm)
  | past hfail hread =>
    cases hres : (p (place ts k) s).result with
    | none =>
      rw [orElse_of_none hres]
      exact (hs _).meets (hfail hres)
    | some r =>
      rw [orElse_of_some hres]
      exact .past hfail hread

/-- Other alternatives do no harm where they are refused and retain the mark. -/
theorem Meets.orElse_of_refuses (hp : p.Meets ts ts' n B k p') (hr : q.Retains ts n k)
    (hq : q.Refuses (place ts k)) (hq' : q'.Refuses (place ts' k)) :
    (Parser.orElse p q).Meets ts ts' n B k (Parser.orElse p' q') :=
  hp.orElse (fun s s' => .inStep (.fail (hq s).1 (hq' s').1)) fun s =>
    ⟨fun _ g => hr s g, fun _ _ h => absurd ((hq s).1.symm.trans h) nofun⟩

/-- The last alternative. -/
theorem Meets.orElse_fail (hp : p.Meets ts ts' n B k p') :
    (Parser.orElse p fail).Meets ts ts' n B k (Parser.orElse p' fail) :=
  hp.orElse_of_refuses (fun _ _ hg => hg) (fun _ => ⟨rfl, rfl⟩) fun _ => ⟨rfl, rfl⟩

/-- Where `p` fails and `p'` does not, the run may stop short of its marks, so `B` must hold. -/
theorem Meets.optional_then {f f' : Option α → Parser σ β} (hk : k ≤ n)
    (hp : p.Meets ts ts' n B k p') (hf : ∀ o, (f o).Silent) (hf' : ∀ o, (f' o).Silent)
    (hB : ∀ s s', (p (place ts k) s).result = none → (p' (place ts' k) s').result ≠ none → B k) :
    (optional p >>= f).Meets ts ts' n B k (optional p' >>= f') := by
  intro s s'
  cases hp s s' with
  | inStep h =>
    cases h with
    | fail h h' =>
      rw [optional_bind_of_none h, optional_bind_of_none h']
      exact Outcome.Meets.after (.inStep ((hf none).inStep (hf' none) hk _ _)) _ _
    | @read a a' m h h' hm =>
      rw [optional_bind_of_some h, optional_bind_of_some h']
      exact Outcome.Meets.after (.inStep ((hf _).inStep (hf' _) hm _ _)) _ _
  | past hfail hread =>
    cases hres : (p (place ts k) s).result with
    | none =>
      rw [optional_bind_of_none hres]
      by_cases h' : (p' (place ts' k) s').result = none
      · rw [optional_bind_of_none h']
        exact Outcome.Meets.after (.inStep ((hf none).inStep (hf' none) hk _ _)) _ _
      · obtain ⟨b, t, hb⟩ := hf none (place ts k) (p (place ts k) s).state
        rw [hb]
        refine .past nofun ?_
        rintro _ m ⟨⟩
        exact .inr ⟨hB s s' hres h', hfail hres⟩
    | some r =>
      obtain ⟨a, j⟩ := r
      obtain ⟨b, t, hb⟩ := hf (some a) j (p (place ts k) s).state
      rw [optional_bind_of_some hres, hb]
      refine .past nofun ?_
      rintro _ m ⟨⟩
      exact hread a m hres

/-! ### Parsers that keep every mark -/

/-- `p` keeps every mark and meets `p'` as far as the tokens are the same. -/
structure Tracks (p : Parser σ α) (ts ts' : List Token) (n : Nat) (L : Language Word) (k : Nat)
    (p' : Parser σ α) : Prop where
  reports : p.Reports ts True L k
  meets : Welcome ts L k → k ≤ n → p.Meets ts ts' n (fun _ => True) k p'

theorem Tracks.mono (h : p.Tracks ts ts' n L k p') (hle : L ≤ M) : p.Tracks ts ts' n M k p' where
  reports := h.reports.mono hle
  meets hw hk := h.meets (hw.mono hle) hk

theorem Silent.tracks (h : p.Silent) (h' : p'.Silent) : p.Tracks ts ts' n 1 k p' where
  reports := h.reports
  meets _ hk := (h.inStep h' hk).meets

theorem tracks_satisfy (hts : ts.take n = ts'.take n) {item : Item} {f : Token → Option α}
    (hr : (satisfy item f : Parser σ α).Reports ts True L k) (hL : [] ∉ L) :
    (satisfy item f : Parser σ α).Tracks ts ts' n L k (satisfy item f) where
  reports := hr
  meets hw hk := meets_satisfy hts hr hL hw hk

theorem tracks_symbol (hts : ts.take n = ts'.take n) (x : Symbol) :
    (symbol x : Parser σ Unit).Tracks ts ts' n {[.symbol x]} k (symbol x) :=
  tracks_satisfy hts (reports_symbol x) (nil_notMem_word _)

theorem tracks_keyword (hts : ts.take n = ts'.take n) (x : Keyword) :
    (keyword x : Parser σ Unit).Tracks ts ts' n {[.keyword x]} k (keyword x) :=
  tracks_satisfy hts (reports_keyword x) (nil_notMem_word _)

theorem Tracks.bind {f f' : α → Parser σ β} (hp : p.Tracks ts ts' n L k p')
    (hf : ∀ a a' us, us ∈ L → Spans (place ts k) us (place ts (k + us.length)) →
      (f a).Tracks ts ts' n M (k + us.length) (f' a'))
    (hM : ∃ vs, vs ∈ M) : (p >>= f).Tracks ts ts' n (L * M) k (p' >>= f') where
  reports := hp.reports.bind (fun a us hus hs => (hf a a us hus hs).reports) hM
  meets hw hk := by
    refine Meets.bind hw hM hp.reports (hp.meets (hw.left hM) hk)
      (fun a us hus hs => (hf a a us hus hs).reports) ?_ ?_
    · exact fun a a' us hus hs hm hw => (hf a a' us hus hs).meets hw hm
    · exact fun a us hus hs hw _ s => ((hf a a us hus hs).reports hw s).settles

theorem Tracks.then_silent {f f' : α → Parser σ β} (hp : p.Tracks ts ts' n L k p')
    (hf : ∀ a, (f a).Silent) (hf' : ∀ a, (f' a).Silent) :
    (p >>= f).Tracks ts ts' n L k (p' >>= f') where
  reports := hp.reports.then_silent hf
  meets hw hk := (hp.meets hw hk).then_silent hf hf'

theorem Tracks.map (hp : p.Tracks ts ts' n L k p') (f f' : α → β) :
    (f <$> p).Tracks ts ts' n L k (f' <$> p') :=
  hp.then_silent (fun a => silent_pure (f a)) fun a => silent_pure (f' a)

theorem Tracks.position {f f' : Nat → Parser σ α} (h : (f k).Tracks ts ts' n L k (f' k)) :
    (Parser.position >>= f).Tracks ts ts' n L k (Parser.position >>= f') where
  reports := h.reports.position
  meets := h.meets

theorem Tracks.between (hts : ts.take n = ts'.take n) {opening closing : Symbol}
    (hp : Spans (place ts k) [.symbol opening] (place ts (k + 1)) →
      p.Tracks ts ts' n L (k + 1) p')
    (hL : ∃ ws, ws ∈ L) : (between opening p closing).Tracks ts ts' n
      ({[.symbol opening]} * (L * {[.symbol closing]})) k (between opening p' closing) := by
  refine (tracks_symbol hts opening).bind (fun _ _ us hus hs => ?_) ?_
  · obtain rfl := hus
    refine (hp hs).bind (fun a a' us _ _ => ?_) ⟨_, rfl⟩
    exact (tracks_symbol hts closing).then_silent (fun _ => silent_pure a) fun _ => silent_pure a'
  · obtain ⟨ws, hws⟩ := hL
    exact ⟨_, Language.append_mem_mul hws rfl⟩

theorem Tracks.orElse (hp : p.Tracks ts ts' n L k p') (hq : q.Tracks ts ts' n M k q') :
    (Parser.orElse p q).Tracks ts ts' n (L + M) k (Parser.orElse p' q') where
  reports := hp.reports.orElse hq.reports
  meets hw hk := by
    have hwq : Welcome ts M k := hw.mono le_add_self
    exact (hp.meets (hw.mono le_self_add) hk).orElse (hq.meets hwq hk) fun s =>
      (hq.reports hwq s).settles

theorem Tracks.orElse_fail (hp : p.Tracks ts ts' n L k p') :
    (Parser.orElse p fail).Tracks ts ts' n L k (Parser.orElse p' fail) where
  reports := hp.reports.orElse_fail
  meets hw hk := (hp.meets hw hk).orElse_fail

theorem Tracks.optional (hp : p.Tracks ts ts' n L k p') :
    (Parser.optional p).Tracks ts ts' n (L + 1) k (Parser.optional p') :=
  (hp.map some some).orElse ((silent_pure none).tracks (silent_pure none))

/-- What follows may depend on whether `p` was there. -/
theorem meets_branch {f f' : Option α → Parser σ β} (hw : Welcome ts (L * M + N) k) (hk : k ≤ n)
    (hM : ∃ vs, vs ∈ M) (hp : p.Tracks ts ts' n L k p')
    (hsr : ∀ a us, us ∈ L → Spans (place ts k) us (place ts (k + us.length)) →
      (f (some a)).Reports ts True M (k + us.length))
    (hsome : ∀ a a' us, us ∈ L → Spans (place ts k) us (place ts (k + us.length)) →
      k + us.length ≤ n → Welcome ts M (k + us.length) →
      (f (some a)).Meets ts ts' n (fun _ => True) (k + us.length) (f' (some a')))
    (hnr : (f none).Reports ts True N k)
    (hnone : (f none).Meets ts ts' n (fun _ => True) k (f' none)) :
    (Parser.optional p >>= f).Meets ts ts' n (fun _ => True) k (Parser.optional p' >>= f') := by
  have hwp : Welcome ts L k := (hw.mono le_self_add).left hM
  intro s s'
  have first := hp.reports hwp s
  cases hp.meets hwp hk s s' with
  | inStep h =>
    cases h with
    | fail h h' =>
      rw [optional_bind_of_none h, optional_bind_of_none h']
      exact (hnone _ _).after _ _
    | @read a a' m h h' hm =>
      obtain ⟨us, hus, hs⟩ := first.lands a _ h
      obtain rfl : m = k + us.length := congrArg Input.pos hs.eq_place
      rw [optional_bind_of_some h, optional_bind_of_some h']
      exact (hsome a a' us hus hs hm ((hw.mono le_self_add).right hus hs) _ _).after _ _
  | past hfail hread =>
    cases hres : (p (place ts k) s).result with
    | none =>
      rw [optional_bind_of_none hres]
      exact (hnr (hw.mono le_add_self) _).settles.meets (hfail hres)
    | some r =>
      obtain ⟨a, j⟩ := r
      obtain ⟨us, hus, hs⟩ := first.lands a j hres
      obtain rfl := hs.eq_place
      rw [optional_bind_of_some hres]
      have second := hsr a us hus hs ((hw.mono le_self_add).right hus hs) (p (place ts k) s).state
      exact (hread a _ hres).elim (Outcome.meets_of_lt second)
        fun ⟨_, hg⟩ => second.settles.meets hg

theorem length_of_take (hts : ts.take n = ts'.take n) (hk : k ≤ n) (hle : k ≤ ts.length) :
    k ≤ ts'.length := by
  have := congrArg List.length hts
  simp only [List.length_take] at this
  omega

theorem Tracks.many (hts : ts.take n = ts'.take n)
    (hp : ∀ m, k ≤ m → p.Tracks ts ts' n L m p') (hL : [] ∉ L) :
    (Parser.many p).Tracks ts ts' n (L∗) k (Parser.many p') where
  reports := Reports.many fun m hm => (hp m hm).reports
  meets := by
    have hr := reports_manyWithin fun m hm => (hp m hm).reports
    have hstar : L * L∗ + 1 = L∗ := by
      rw [add_comm, Language.one_add_self_mul_kstar_eq_kstar]
    -- both bounds on the number of turns are above the number of tokens left
    have go : ∀ fuel fuel' m, k ≤ m → m ≤ n → Welcome ts (L∗) m → ts.length < m + fuel →
        ts'.length < m + fuel' →
        (manyWithin p fuel).Meets ts ts' n (fun _ => True) m (manyWithin p' fuel') := by
      intro fuel
      induction fuel with
      | zero =>
        intro fuel' m _ _ hw hlt
        have := hw.1
        omega
      | succ fuel ih =>
        intro fuel' m hm hmn hw hlt hlt'
        have hle := length_of_take hts hmn hw.1
        obtain ⟨fuel', rfl⟩ : ∃ l, fuel' = l + 1 := ⟨fuel' - 1, by omega⟩
        rw [← hstar] at hw
        refine meets_branch hw hmn ⟨[], L.nil_mem_kstar⟩ (hp m hm) ?_ ?_
          (silent_pure []).reports ((silent_pure []).inStep (silent_pure []) hmn).meets
        · exact fun a us _ _ => (hr fuel _ (by omega)).then_silent fun _ => silent_pure _
        · intro a a' us hus hs hle' hwrest
          have hpos : us.length ≠ 0 := fun eq => hL (List.length_eq_zero_iff.mp eq ▸ hus)
          exact (ih fuel' _ (by omega) hle' hwrest (by omega) (by omega)).then_silent
            (fun _ => silent_pure _) fun _ => silent_pure _
    intro hw hk s s'
    exact go _ _ k (Nat.le_refl k) hk hw (by simp; omega) (by simp; omega) s s'

theorem Tracks.separatedBy (hts : ts.take n = ts'.take n) {separator separator' : Parser σ Unit}
    {S : Language Word} (hp : ∀ m, k ≤ m → p.Tracks ts ts' n L m p') (hL : ∃ ws, ws ∈ L)
    (hs : ∀ m, separator.Tracks ts ts' n S m separator') (hS : [] ∉ S) :
    (Parser.separatedBy p separator).Tracks ts ts' n (L * (S * L)∗ + 1) k
      (Parser.separatedBy p' separator') where
  reports := Reports.separatedBy (fun m hm => (hp m hm).reports) hL fun m => (hs m).reports
  meets := by
    have item : ∀ m, k ≤ m → (do separator; p : Parser σ α).Tracks ts ts' n (S * L) m
        (do separator'; p') := fun m hm =>
      (hs m).bind (fun _ _ _ _ _ => hp _ (by omega)) hL
    have hne : [] ∉ S * L := by
      rintro ⟨ws, hws, vs, -, happ⟩
      exact hS ((List.append_eq_nil_iff.mp happ).1 ▸ hws)
    have hmany : ∀ m, k ≤ m → (Parser.many (do separator; p : Parser σ α)).Tracks ts ts' n
        ((S * L)∗) m (Parser.many (do separator'; p')) := fun m hm =>
      Tracks.many hts (fun l hl => item l (by omega)) hne
    intro hw hk
    refine meets_branch hw hk ⟨[], Language.nil_mem_kstar _⟩ (hp k (Nat.le_refl k)) ?_ ?_
      (silent_pure []).reports ((silent_pure []).inStep (silent_pure []) hk).meets
    · exact fun a us _ _ => (hmany _ (by omega)).reports.then_silent fun _ => silent_pure _
    · intro a a' us _ _ hle hwrest
      exact ((hmany _ (by omega)).meets hwrest hle).then_silent (fun _ => silent_pure _)
        fun _ => silent_pure _

/-- A name makes up for the marks that are lost inside. -/
theorem tracks_named (hr : p.Reports ts c L k)
    (hp : Welcome ts L k → k ≤ n → p.Meets ts ts' n B k p') (hL : ∃ ws, ws ∈ L) (phrase : Phrase) :
    (named phrase p).Tracks ts ts' n L k (named phrase p') where
  reports := hr.named hL phrase
  meets hw hk := ((hp hw hk).named phrase).mono fun _ _ => trivial

theorem Tracks.named (h : p.Tracks ts ts' n L k p') (hL : ∃ ws, ws ∈ L) (phrase : Phrase) :
    (Parser.named phrase p).Tracks ts ts' n L k (Parser.named phrase p') :=
  tracks_named h.reports h.meets hL phrase

/-- Alternatives for one language. -/
theorem tracks_choice {ps ps' : List (Parser σ α)} (hne : ps ≠ [])
    (h : List.Forall₂ (fun p p' => p.Tracks ts ts' n L k p') ps ps') :
    (choice ps).Tracks ts ts' n L k (choice ps') := by
  induction h with
  | nil => exact absurd rfl hne
  | @cons p p' ps ps' hp hps ih =>
    cases hps with
    | nil => exact hp.orElse_fail
    | cons hq hqs =>
      exact (hp.orElse (ih (List.cons_ne_nil _ _))).mono (add_idem L).le

end Parser

end FlatScope.Grammar
