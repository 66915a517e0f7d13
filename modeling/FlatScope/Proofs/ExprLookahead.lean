import FlatScope.Proofs.ExprReports

/-!
# Expressions on token lists that begin alike

`meets_operand` follows an operand on both lists, by induction on the tokens that are left. The
atoms forget the marks of the prefixed operands tried before them, so that a prefix operator must
not lack its operand (`LacksOperand`). An operand that was stopped past the common tokens may still
end in front of them: at arguments, at an access or at an operator whose right side cannot be read.
No extension is read there later (`Blocked`), so the marks are not lost (`MayStop`).
-/

namespace FlatScope

/-- A prefix operator stands here, where an expression may begin, and no expression follows it. -/
def LacksOperand (tokens : List Token) (q : Nat) : Prop :=
  (∃ op : UnOp, tokens[q]? = some (.symbol op.symbol)) ∧
    Viable (tokens.take q ++ [.symbol .bang]) ∧
    ∀ m words, Derives .expr words → ¬ Spells ((tokens.drop (q + 1)).take m) words

namespace Grammar

open FlatScope.Grammar.Parser
open scoped Computability

variable {ts ts' : List Token} {n k m : Nat}

theorem spans_of_spells_take_drop {us : List Word} (h : Spells ((ts.drop k).take m) us) :
    Spans (place ts k) us (place ts (k + us.length)) := by
  induction us generalizing k m with
  | nil => exact .nil _
  | cons u us ih =>
    by_cases hlt : k < ts.length
    · cases m with
      | zero => cases h
      | succ m =>
        rw [List.drop_eq_getElem_cons hlt, List.take_succ_cons] at h
        unfold Spells at h
        rw [List.map_cons, List.map_cons, List.cons.injEq] at h
        have hrest := ih h.2
        rw [Nat.add_right_comm, Nat.add_assoc] at hrest
        exact .cons (takes_place.mpr ⟨List.getElem?_eq_getElem hlt, rfl⟩) h.1 hrest
    · rw [List.drop_eq_nil_of_le (Nat.le_of_not_lt hlt), List.take_nil] at h
      cases h

/-- Tokens among the common ones say the same in both lists. -/
theorem Spans.transfer (hts : ts.take n = ts'.take n) {us : List Word}
    (h : Spans (place ts k) us (place ts m)) (hm : m ≤ n) :
    Spans (place ts' k) us (place ts' m) := by
  induction us generalizing k with
  | nil =>
    obtain rfl : k = m := congrArg Input.pos (spans_nil.mp h)
    exact .nil _
  | cons u us ih =>
    obtain ⟨t, i, ht, hw, hs⟩ := spans_cons.mp h
    obtain ⟨hk, rfl⟩ := takes_place.mp ht
    have hlen : m = k + 1 + us.length := congrArg Input.pos hs.eq_place
    have hk' : ts'[k]? = some t := by rw [← getElem?_eq_of_take hts (by omega), hk]
    exact .cons (takes_place.mpr ⟨hk', rfl⟩) hw (ih hs)

namespace Parser

variable {σ α : Type} {p q : Parser σ α}

theorem tracks_identifier {σ : Type} (hts : ts.take n = ts'.take n) :
    (identifier : Parser σ String).Tracks ts ts' n names k identifier :=
  (tracks_satisfy hts (reports_select exists_names exists_word_of_identifier)
    nil_notMem_names).named exists_names _

theorem Meets.identifier_then {M : Language Word} {c : Prop} {C : Nat → Prop}
    (hts : ts.take n = ts'.take n) {f f' : String → Parser σ α} (hw : Welcome ts (names * M) k)
    (hM : ∃ vs, vs ∈ M) (hk : k ≤ n) (hfr : ∀ name, (f name).Reports ts c M (k + 1))
    (hf : ∀ name name', k + 1 ≤ n → Welcome ts M (k + 1) →
      (f name).Meets ts ts' n C (k + 1) (f' name')) :
    (identifier >>= f).Meets ts ts' n C k (identifier >>= f') := by
  have hp : (identifier : Parser σ String).Meets ts ts' n (fun _ => False) k identifier :=
    Meets.named (meets_satisfy hts (reports_select exists_names exists_word_of_identifier)
      nil_notMem_names (hw.left hM) hk) _
  refine Meets.bind (B := fun _ => False) (c := True) (d := c) hw hM reports_identifier hp ?_ ?_
    fun _ _ _ _ _ h => h.elim
  · rintro name _ ⟨_, rfl⟩ _
    exact hfr name
  · rintro name name' _ ⟨_, rfl⟩ _
    exact hf name name'

/-- What a choice does not read, none of its alternatives reads, maybe in another state. -/
theorem exists_none_of_choice {i : Input} {ps : List (Parser σ α)} {s : σ}
    (h : (choice ps i s).result = none) : ∀ p ∈ ps, ∃ u, (p i u).result = none := by
  induction ps generalizing s with
  | nil => nofun
  | cons q ps ih =>
    replace h : (orElse q (choice ps) i s).result = none := h
    cases hr : (q i s).result with
    | none =>
      rw [orElse_of_none hr] at h
      exact List.forall_mem_cons.mpr ⟨⟨s, hr⟩, ih h⟩
    | some r =>
      rw [orElse_of_some hr, hr] at h
      cases h

theorem Alike.never_reads {p' : Parser σ α} {i : Input} {s : σ} (h : p.Alike p' i)
    (hr : (p i s).result = none) (s' : σ) : (p' i s').result = none := (h s s').result_eq_none hr

theorem token_then {t : Token} (h : ts[k]? = some t) (f : Unit → Parser σ α) (s : σ) :
    (token t >>= f) (place ts k) s = f () (place ts (k + 1)) s := by
  have hout : token t (place ts k) s = ⟨some ((), place ts (k + 1)), s, id⟩ := by
    rw [token, satisfy_place, h]
    simp
  rw [bind_of_some (by rw [hout]), hout]
  rfl

theorem refuses_token_then {t : Token} (h : ts[k]? ≠ some t) (f : Unit → Parser σ α) :
    (token t >>= f).Refuses (place ts k) :=
  (refuses_token (by rwa [next?_place])).bind f

theorem retains_token_then {t : Token} (h : ts[k]? ≠ some t) (f : Unit → Parser σ α) :
    (token t >>= f).Retains ts n k := by
  intro s g hg
  have hnone : (ts[k]? >>= fun u => if u = t then some () else none) = none := by
    cases hk : ts[k]? with
    | none => rfl
    | some u =>
      have : u ≠ t := fun eq => h (by rw [hk, eq])
      simp [this]
  have hout : token t (place ts k) s = ⟨none, s, fun g => g.miss k (.token t) ts[k]?⟩ := by
    rw [token, satisfy_place, hnone]
  rw [bind_of_none (by rw [hout]), hout]
  exact hg.miss

/-- Reads nothing at token number `k`, and a mark past the first `n` tokens stays. -/
structure Barred (p : Parser σ α) (ts : List Token) (n k : Nat) : Prop where
  never_reads : ∀ s, (p (place ts k) s).result = none
  retains : p.Retains ts n k

theorem barred_token_then {t : Token} (h : ts[k]? ≠ some t) (f : Unit → Parser σ α) :
    (token t >>= f).Barred ts n k :=
  ⟨fun s => (refuses_token_then h f s).1, retains_token_then h f⟩

theorem barred_choice {ps : List (Parser σ α)} (h : ∀ p ∈ ps, p.Barred ts n k) :
    (choice ps).Barred ts n k := by
  refine ⟨?_, retains_choice fun p hp => (h p hp).retains⟩
  induction ps with
  | nil => exact fun s => rfl
  | cons p ps ih =>
    obtain ⟨hp, hps⟩ := List.forall_mem_cons.mp h
    intro s
    show (orElse p (choice ps) (place ts k) s).result = none
    rw [orElse_of_none (hp.never_reads s)]
    exact ih hps _

end Parser

namespace Expr

/-! ## Places where an operand may stop short -/

variable {fuel fuel' power first : Nat} {left : NodeId}

/-- At token number `m` every extension is barred, whatever came before. -/
def Blocked (ts : List Token) (n m : Nat) : Prop :=
  ∀ fuel power first left, ts.length ≤ m + fuel → (step fuel power first left).Barred ts n m

/-- Where an operand may end that was stopped by something past the first `n` tokens. -/
def MayStop (ts : List Token) (n m : Nat) : Prop := n ≤ m ∨ Blocked ts n m

theorem barred_step (haccess : (Bare.access (inner fuel) first left).Barred ts n m)
    (hbinary : ∀ op, (Bare.binary (Bare.operand fuel) first left op).Barred ts n m) :
    (step fuel power first left).Barred ts n m := by
  refine barred_choice fun p hp => ?_
  rcases List.mem_cons.mp hp with rfl | hp
  · exact haccess
  · obtain ⟨op, -, rfl⟩ := List.mem_map.mp hp
    exact hbinary op

/-- Only accesses and operators extend an operand. -/
theorem blocked_of_next {s : Symbol} (h : ts[m]? = some (.symbol s)) (hdot : s ≠ .dot)
    (hop : ∀ op : BinOp, s ≠ op.symbol) : Blocked ts n m := by
  intro fuel power first left _
  refine barred_step (barred_token_then ?_ _) fun op => barred_token_then ?_ _
  · simpa [h] using hdot
  · simpa [h] using hop op

/-- An access that cannot be read here cannot be read later either. -/
theorem blocked_of_dot (h : ts[m]? = some (.symbol .dot)) (hw : Welcome ts extensions m)
    (hfuel : ts.length ≤ m + fuel) {s : Builder}
    (hr : (Bare.access (inner fuel) first left (place ts m) s).result = none) : Blocked ts n m := by
  obtain ⟨hlt, -⟩ := List.getElem?_eq_some_iff.mp h
  intro fuel' power' first' left' hfuel'
  have halike : (Bare.access (inner fuel) first left).Alike (Bare.access (inner fuel') first' left')
      (place ts m) := by
    refine alike_access (fun j hj => ?_) (inner_sound fuel) _ _ _ _
    rw [place_rest_length] at hj
    exact (alike_operand fuel fuel' 0 j (by omega) (by omega)).named _
  have hE : ∀ l, m < l → (inner fuel').Reports ts True (phrases .expr) l := fun l hl =>
    (reports_operand fuel' 0 l (by omega)).named exists_phrases_expr _
  refine barred_step ⟨halike.never_reads hr, ?_⟩ fun op => barred_token_then ?_ _
  · exact (reports_access hE (Nat.le_refl m) first' left').retains hw
  · rw [h]
    cases op <;> simp [BinOp.symbol]

/-- An operator whose right side was stopped past the first `n` tokens is stopped there again. -/
theorem blocked_of_operator {op : BinOp} (h : ts[m]? = some (.symbol op.symbol))
    (hfuel : ts.length ≤ m + fuel) {s : Builder}
    (hr : (Bare.operand fuel (2 * op.level + 1) (place ts (m + 1)) s).result = none)
    (hpast : ∀ g, ((Bare.operand fuel (2 * op.level + 1) (place ts (m + 1)) s).note g).Past n) :
    Blocked ts n m := by
  obtain ⟨hlt, -⟩ := List.getElem?_eq_some_iff.mp h
  intro fuel' power' first' left' hfuel'
  have halike : (Bare.operand fuel (2 * op.level + 1)).Alike
      (Bare.operand fuel' (2 * op.level + 1)) (place ts (m + 1)) :=
    alike_operand fuel fuel' _ _ (by rw [place_rest_length]; omega)
      (by rw [place_rest_length]; omega)
  have hbinary : ∀ s', Bare.binary (Bare.operand fuel') first' left' op (place ts m) s' =
      ⟨none, (Bare.operand fuel' (2 * op.level + 1) (place ts (m + 1)) s').state,
        (Bare.operand fuel (2 * op.level + 1) (place ts (m + 1)) s).note⟩ := fun s' => by
    rw [Bare.binary, symbol, token_then h, bind_of_none (halike.never_reads hr s'), (halike s s').2]
  refine barred_step (barred_token_then ?_ _) fun other => ?_
  · rw [h]
    cases op <;> simp [BinOp.symbol]
  · by_cases eq : other = op
    · subst eq
      exact ⟨fun s' => by rw [hbinary s'], fun s' g _ => by rw [hbinary s']; exact hpast g⟩
    · refine barred_token_then (fun hnext => eq ?_) _
      rw [h] at hnext
      exact BinOp.symbol_inj (by simpa using hnext.symm)

/-- Where an operand was stopped, an extension loses no mark. -/
theorem MayStop.retains_step {c : Prop} (h : MayStop ts n m) (hfuel : ts.length ≤ k + fuel)
    (hkm : k ≤ m) (hr : (step fuel power first left).Reports ts c extensions m)
    (hw : Welcome ts extensions m) :
    (step fuel power first left).Retains ts n m := by
  rcases h with hle | hblocked
  · exact fun s g hg => (hr hw s).keeps n g (.inr hle) hg
  · exact (hblocked fuel power first left (by omega)).retains

/-- An extension is read only past the common tokens. -/
theorem MayStop.le_of_reads (h : MayStop ts n m) (hfuel : ts.length ≤ k + fuel) (hkm : k ≤ m)
    {s : Builder} (hr : (step fuel power first left (place ts m) s).result ≠ none) : n ≤ m := by
  rcases h with hle | hblocked
  · exact hle
  · exact absurd ((hblocked fuel power first left (by omega)).never_reads s) hr

/-! ## The parts of an operand on both lists -/

theorem alike_inner_self (i : Input) (h : i.rest.length ≤ fuel) :
    ∀ j, j.rest.length < i.rest.length → (inner fuel).Alike (inner fuel) j := fun j hj =>
  (alike_operand fuel fuel 0 j (by omega) (by omega)).named _

section

variable (hts : ts.take n = ts'.take n) (hfuel : ts.length ≤ k + fuel)
  (hfuel' : ts'.length ≤ k + fuel')
  (hM : ∀ power m, k < m → m ≤ n → Welcome ts (phrases .expr) m →
    (Bare.operand fuel power).Meets ts ts' n (MayStop ts n) m (Bare.operand fuel' power))

omit hts hfuel' hM in
include hfuel in
theorem reports_inside (power m : Nat) (hm : k < m) :
    (Bare.operand fuel power).Reports ts False (phrases .expr) m :=
  reports_operand fuel power m (by omega)

omit hts hfuel' in
include hfuel hM in
theorem tracks_inner (hm : k < m) :
    (inner fuel).Tracks ts ts' n (phrases .expr) m (inner fuel') :=
  tracks_named (reports_inside hfuel 0 m hm) (fun hw hmn => hM 0 m hm hmn hw) exists_phrases_expr _

include hts hfuel hfuel' hM

/-- Arguments end with a parenthesis, so what is read of them can be read again. -/
theorem meets_arguments (hkm : k ≤ m) (hmn : m ≤ n) (hw : Welcome ts argumentPhrases m) :
    (arguments (inner fuel)).Meets ts ts' n (fun _ => False) m (arguments (inner fuel')) := by
  have hlist : ∀ l, k < l → (separatedBy (inner fuel) (symbol .comma)).Tracks ts ts' n
      (phrases .expr * ({[.symbol .comma]} * phrases .expr)∗ + 1) l
      (separatedBy (inner fuel') (symbol .comma)) := fun l hl =>
    Tracks.separatedBy hts (fun j hj => tracks_inner hfuel hM (by omega))
      exists_phrases_expr (fun j => tracks_symbol hts .comma) (nil_notMem_word _)
  have hbetween : (between .leftParen (separatedBy (inner fuel) (symbol .comma))
      .rightParen).Tracks ts ts' n _ m
      (between .leftParen (separatedBy (inner fuel') (symbol .comma)) .rightParen) :=
    Tracks.between hts (fun _ => hlist (m + 1) (by omega)) ⟨[], .inr rfl⟩
  have htracks : (arguments (inner fuel)).Meets ts ts' n (fun _ => True) m
      (arguments (inner fuel')) :=
    (Meets.position (((hbetween.mono commas_le_argumentPhrases).meets hw hmn).then_silent
      (fun _ => silent_build _) fun _ => silent_build _)).named _
  refine htracks.of_reread fun s s' a l hres hln => ?_
  obtain ⟨args, hargs⟩ := (arguments_sound (inner_sound fuel)).spans ⟨hres, rfl⟩
  rw [← words_map_regroup] at hargs
  have hlen : (place ts' m).rest.length ≤ fuel' := by
    rw [place_rest_length]
    omega
  have hb : (arguments (inner fuel')).Builds (.exprs (args.map Expr.regroup)) (place ts' m)
      (place ts' l) := builds_arguments (readable_args args) hlen (hargs.transfer hts hln)
  obtain ⟨o, c, hr, -⟩ := hb ⟨#[], 0, .empty 0⟩ rfl
  exact hr.again (alike_arguments (alike_inner_self _ hlen) (inner_sound fuel')) s'

/-- What stands in parentheses can be read again. -/
theorem meets_parenthesized (hkm : k ≤ m) (hmn : m ≤ n)
    (hw : Welcome ts ({[.symbol .leftParen]} * (phrases .expr * {[.symbol .rightParen]})) m) :
    (parenthesized (inner fuel)).Meets ts ts' n (fun _ => False) m
      (parenthesized (inner fuel')) := by
  have hbetween : (between .leftParen (inner fuel) .rightParen).Tracks ts ts' n _ m
      (between .leftParen (inner fuel') .rightParen) :=
    Tracks.between hts (fun _ => tracks_inner hfuel hM (Nat.lt_succ_of_le hkm)) exists_phrases_expr
  refine Meets.then_silent ?_ (fun _ => silent_pure _) fun _ => silent_pure _
  refine (hbetween.meets hw hmn).of_reread fun s s' a l hres hln => ?_
  obtain ⟨e, he⟩ := (inner_sound fuel).between.spans ⟨hres, rfl⟩
  have hlen : (place ts' m).rest.length ≤ fuel' := by
    rw [place_rest_length]
    omega
  obtain ⟨i, j, hi, hinner, hj⟩ := spans_inParens.mp (he.transfer hts hln)
  rw [← e.words_regroup] at hinner
  have hlt := hi.rest_lt
  have hoperand : (Bare.operand fuel' 0).Builds (.expr e.regroup) i j :=
    builds_operand e.grouped_regroup (by omega) (Expr.fits_zero _) hinner
      (stops_of_next hj.next? rfl 0)
  obtain ⟨o, c, hr, -⟩ := hoperand ⟨#[], 0, .empty 0⟩ rfl
  have hread : (between .leftParen (inner fuel') .rightParen).Reads (place ts' m)
      ⟨#[], 0, .empty 0⟩ o.id (place ts' l) c := reads_between.mpr ⟨i, j, hi, hr, hj⟩
  refine hread.again ?_ s'
  refine (alike_symbol _).bind fun s _ j t hr _ => ?_
  refine (alike_inner_self _ hlen j (reads_symbol.mp hr).1.rest_lt).bind fun s a l t hr _ => ?_
  exact (alike_symbol _).then_silent (fun _ => silent_pure _) fun _ => silent_pure _

theorem meets_creation (hkm : k ≤ m) (hmn : m ≤ n)
    (hw : Welcome ts ({[.keyword .new]} * (names * argumentPhrases)) m) :
    (creation (inner fuel)).Meets ts ts' n (fun _ => False) m (creation (inner fuel')) := by
  have hargs : ∀ l, m ≤ l → (arguments (inner fuel)).Reports ts True argumentPhrases l :=
    fun l hl => reports_arguments (reports_inner (reports_inside hfuel)) (by omega)
  refine Meets.token_then (c := True) hts rfl hw (exists_mul exists_names exists_argumentPhrases)
    hmn ?_ fun hmn hw => ?_
  · refine reports_identifier.bind (fun _ _ _ _ => ?_) exists_argumentPhrases
    exact (hargs _ (by omega)).then_silent fun _ => silent_pure _
  · refine Meets.identifier_then (c := True) hts hw exists_argumentPhrases hmn ?_ ?_
    · exact fun _ => (hargs _ (by omega)).then_silent fun _ => silent_pure _
    · exact fun _ _ hmn hw => (meets_arguments hts hfuel hfuel' hM (by omega) hmn hw).then_silent
        (fun _ => silent_pure _) fun _ => silent_pure _

/-- The operand may end in front of arguments that cannot be read. -/
theorem meets_optional_arguments {α : Type} {f f' : Option NodeId → TreeParser α}
    (hf : ∀ o, (f o).Silent) (hf' : ∀ o, (f' o).Silent) (hkm : k ≤ m) (hmn : m ≤ n)
    (hw : Welcome ts (argumentPhrases + 1) m) :
    (optional (arguments (inner fuel)) >>= f).Meets ts ts' n (MayStop ts n) m
      (optional (arguments (inner fuel')) >>= f') := by
  have hargs := meets_arguments hts hfuel hfuel' hM hkm hmn (hw.mono le_self_add)
  refine Meets.optional_then hmn (hargs.mono fun _ h => h.elim) hf hf' fun s s' _ hsome => ?_
  rcases Nat.lt_or_eq_of_le hmn with hlt | rfl
  · have hnext : ts'[m]? = some (.symbol .leftParen) := by
      by_contra hne
      exact hsome (refuses_arguments (by rwa [next?_place]) s').1
    rw [← getElem?_eq_of_take hts hlt] at hnext
    exact .inr (blocked_of_next hnext (by simp) fun op => by cases op <;> simp [BinOp.symbol])
  · exact .inl (Nat.le_refl m)

theorem meets_nameOrCall (hkm : k ≤ m) (hmn : m ≤ n)
    (hw : Welcome ts (names * (argumentPhrases + 1)) m) :
    (nameOrCall (inner fuel)).Meets ts ts' n (MayStop ts n) m (nameOrCall (inner fuel')) := by
  refine Meets.identifier_then (c := True) hts hw ⟨[], .inr rfl⟩ hmn (fun _ => ?_)
    fun _ _ hmn hw => ?_
  · exact (reports_arguments (reports_inner (reports_inside hfuel))
      (Nat.le_succ_of_le hkm)).optional.then_silent fun _ => silent_pure _
  · exact meets_optional_arguments hts hfuel hfuel' hM (fun _ => silent_pure _)
      (fun _ => silent_pure _) (Nat.le_succ_of_le hkm) hmn hw

theorem meets_access (hkm : k ≤ m) (hmn : m ≤ n)
    (hw : Welcome ts ({[.symbol .dot]} * (names * (argumentPhrases + 1))) m)
    (first first' : Nat) (left left' : NodeId) :
    (Bare.access (inner fuel) first left).Meets ts ts' n (MayStop ts n) m
      (Bare.access (inner fuel') first' left') := by
  have hargs : ∀ l, m ≤ l → (optional (arguments (inner fuel))).Reports ts True
      (argumentPhrases + 1) l := fun l hl =>
    (reports_arguments (reports_inner (reports_inside hfuel)) (by omega)).optional
  refine Meets.token_then (c := True) hts rfl hw (exists_mul exists_names ⟨[], .inr rfl⟩)
    hmn ?_ fun hmn hw => ?_
  · refine reports_identifier.bind (fun _ _ _ _ => ?_) ⟨[], .inr rfl⟩
    exact (hargs _ (by omega)).then_silent fun _ => silent_build _
  · refine Meets.identifier_then (c := True) hts hw ⟨[], .inr rfl⟩ hmn (fun _ => ?_)
      fun _ _ hmn hw => ?_
    · exact (hargs _ (by omega)).then_silent fun _ => silent_build _
    · exact meets_optional_arguments hts hfuel hfuel' hM (fun _ => silent_build _)
        (fun _ => silent_build _) (by omega) hmn hw

/-- An atom is told by its first token. -/
theorem meets_atom (hkm : k ≤ m) (hmn : m < n) (hw : Welcome ts (phrases .expr) m) :
    (Bare.atom (inner fuel)).Meets ts ts' n (MayStop ts n) m (Bare.atom (inner fuel')) := by
  have hE := reports_inner (reports_inside hfuel)
  have hnext : ∀ {t : Token}, ts[m]? ≠ some t →
      (place ts m).next? ≠ some t ∧ (place ts' m).next? ≠ some t := fun h => by
    rw [next?_place, next?_place, ← getElem?_eq_of_take hts hmn]
    exact ⟨h, h⟩
  -- the alternatives behind the one that the token belongs to
  have hparen : ts[m]? ≠ some (.symbol .leftParen) →
      (orElse (parenthesized (inner fuel)) fail).Retains ts n m ∧
      (orElse (parenthesized (inner fuel)) fail).Refuses (place ts m) ∧
      (orElse (parenthesized (inner fuel')) fail).Refuses (place ts' m) := fun h =>
    ⟨((reports_parenthesized hE hkm).orElse_fail).retains hw,
      Refuses.orElse ((refuses_between (hnext h).1).map _) fun s => ⟨rfl, rfl⟩,
      Refuses.orElse ((refuses_between (hnext h).2).map _) fun s => ⟨rfl, rfl⟩⟩
  have hname : (∀ name, ts[m]? ≠ some (.identifier name)) →
      (nameOrCall (inner fuel)).Refuses (place ts m) ∧
      (nameOrCall (inner fuel')).Refuses (place ts' m) := fun h =>
    ⟨(refuses_identifier fun name => (hnext (h name)).1).bind _,
      (refuses_identifier fun name => (hnext (h name)).2).bind _⟩
  refine Meets.position (Meets.then_silent ?_ (fun _ => silent_build _) fun _ => silent_build _)
  refine (inStep_satisfy hts hmn).orElse ((inStep_decoded hts hmn).orElse ?_)
  by_cases hnew : ts[m]? = some (.keyword .new)
  · obtain ⟨hretains, hrefuses, hrefuses'⟩ := hparen (by rw [hnew]; simp)
    obtain ⟨hn, hn'⟩ := hname fun name => by rw [hnew]; simp
    have hcreation := meets_creation hts hfuel hfuel' hM hkm hmn.le (hw.mono creation_le)
    refine (hcreation.mono fun _ h => h.elim).orElse_of_refuses ?_ (hn.orElse hrefuses)
      (hn'.orElse hrefuses')
    exact ((reports_nameOrCall hE hkm).orElse (reports_parenthesized hE hkm).orElse_fail).retains
      (hw.mono (add_idem _).le)
  · have hcreation : (creation (inner fuel)).InStep ts ts' n m (creation (inner fuel')) :=
      inStep_of_refuses ((refuses_keyword (hnext hnew).1).bind _)
        ((refuses_keyword (hnext hnew).2).bind _)
    refine hcreation.orElse ?_
    by_cases hid : ∃ name, ts[m]? = some (.identifier name)
    · obtain ⟨name, hid⟩ := hid
      obtain ⟨hretains, hrefuses, hrefuses'⟩ := hparen (by rw [hid]; simp)
      exact (meets_nameOrCall hts hfuel hfuel' hM hkm hmn.le
        (hw.mono nameOrCall_le)).orElse_of_refuses hretains hrefuses hrefuses'
    · obtain ⟨hn, hn'⟩ := hname fun name h => hid ⟨name, h⟩
      refine (inStep_of_refuses hn hn').orElse ?_
      exact ((meets_parenthesized hts hfuel hfuel' hM hkm hmn.le
        (hw.mono parenthesized_le)).mono fun _ h => h.elim).orElse_fail

omit hfuel' in
theorem meets_unary (hkm : k ≤ m) (hmn : m ≤ n) (op : UnOp) (hw : Welcome ts (phrases .expr) m) :
    (Bare.unary (Bare.operand fuel) op).Meets ts ts' n (MayStop ts n) m
      (Bare.unary (Bare.operand fuel') op) := by
  refine Meets.position (Meets.token_then (c := False) hts rfl (hw.mono (unary_le op))
    exists_phrases_expr hmn ?_ fun hmn hw => ?_)
  · exact (reports_inside hfuel _ (m + 1) (by omega)).then_silent fun _ => silent_build _
  · exact (hM _ (m + 1) (by omega) hmn hw).then_silent (fun _ => silent_build _)
      fun _ => silent_build _

omit hfuel' in
theorem meets_binary (hkm : k ≤ m) (hmn : m ≤ n) (op : BinOp) (hw : Welcome ts extensions m)
    (first first' : Nat) (left left' : NodeId) :
    (Bare.binary (Bare.operand fuel) first left op).Meets ts ts' n (MayStop ts n) m
      (Bare.binary (Bare.operand fuel') first' left' op) := by
  refine Meets.token_then (c := False) hts rfl (hw.mono (binary_le op)) exists_phrases_expr hmn ?_
    fun hmn hw => ?_
  · exact (reports_inside hfuel _ (m + 1) (by omega)).then_silent fun _ => silent_build _
  · exact (hM _ (m + 1) (by omega) hmn hw).then_silent (fun _ => silent_build _)
      fun _ => silent_build _

omit hts hfuel' hM in
/-- A prefix operator is read if it has an operand. -/
theorem sure_unary {op : UnOp} (hnext : ts[m]? = some (.symbol op.symbol)) (hkm : k ≤ m)
    (hw : Welcome ts (phrases .expr) m) (hlacks : ¬ LacksOperand ts m) :
    (Bare.unary (Bare.operand fuel) op).Sure (place ts m) := by
  obtain ⟨hlt, -⟩ := List.getElem?_eq_some_iff.mp hnext
  have hbang : Viable (ts.take m ++ [.symbol .bang]) := by
    have hle := hw.mono (unary_le .not)
    exact (hle.left exists_phrases_expr).admits_token rfl rfl
  obtain ⟨l, ws, he, hs⟩ : ∃ l ws, Derives .expr ws ∧ Spells ((ts.drop (m + 1)).take l) ws := by
    by_contra h
    exact hlacks ⟨⟨op, hnext⟩, hbang, fun l ws he hs => h ⟨l, ws, he, hs⟩⟩
  obtain ⟨e, rfl⟩ := he.hasTree
  have hoperand : (Bare.operand fuel unaryPower).Sure (place ts (m + 1)) :=
    sure_operand (spans_of_spells_take_drop hs) (by rw [place_rest_length]; omega) unaryPower
  refine Sure.position ((sure_symbol (takes_place.mpr ⟨hnext, rfl⟩)).bind fun s _ j t hr => ?_)
  obtain ⟨-, rfl⟩ := takes_place.mp (reads_symbol.mp hr).1
  exact hoperand.bind fun _ _ _ _ _ => (silent_build _).sure

/-- If no prefix operator lacks its operand, the mark of what fails in one is not lost. -/
theorem meets_start (hkm : k ≤ m) (hmn : m ≤ n) (hw : Welcome ts (phrases .expr) m)
    (hlacks : m < n → ¬ LacksOperand ts m) :
    (start fuel).Meets ts ts' n (MayStop ts n) m (start fuel') := by
  rcases Nat.lt_or_eq_of_le hmn with hlt | rfl
  · have hrefuses : ∀ op : UnOp, ts[m]? ≠ some (.symbol op.symbol) →
        (Bare.unary (Bare.operand fuel) op).InStep ts ts' n m
          (Bare.unary (Bare.operand fuel') op) :=
      fun op h => inStep_of_refuses (refuses_unary (by rwa [next?_place]))
        (refuses_unary (by rwa [next?_place, ← getElem?_eq_of_take hts hlt]))
    by_cases hbang : ts[m]? = some (.symbol .bang)
    · exact (meets_unary hts hfuel hM hkm hmn .not hw).orElse_of_reads
        (sure_unary hfuel hbang hkm hw (hlacks hlt))
    · refine (hrefuses .not hbang).orElse ?_
      by_cases hminus : ts[m]? = some (.symbol .minus)
      · exact (meets_unary hts hfuel hM hkm hmn .neg hw).orElse_of_reads
          (sure_unary hfuel hminus hkm hw (hlacks hlt))
      · refine (hrefuses .neg hminus).orElse ?_
        exact (meets_atom hts hfuel hfuel' hM hkm hlt hw).orElse_fail
  · exact meets_of_reports (reports_start (reports_inside hfuel) hkm) hw nil_notMem_phrases

omit hfuel' in
/-- One of the operators that the power allows, or none. -/
theorem meets_operators (hkm : k ≤ m) (hmn : m < n) (hw : Welcome ts extensions m)
    (first first' : Nat) (left left' : NodeId) {ops : List BinOp} (hnodup : ops.Nodup) :
    (choice (ops.map (Bare.binary (Bare.operand fuel) first left))).Meets ts ts' n (MayStop ts n) m
      (choice (ops.map (Bare.binary (Bare.operand fuel') first' left'))) := by
  have hrefuses : ∀ op : BinOp, ts[m]? ≠ some (.symbol op.symbol) →
      (Bare.binary (Bare.operand fuel) first left op).Refuses (place ts m) ∧
      (Bare.binary (Bare.operand fuel') first' left' op).Refuses (place ts' m) := fun op h =>
    ⟨refuses_token_then h _,
      refuses_token_then (by rwa [← getElem?_eq_of_take hts hmn]) _⟩
  induction ops with
  | nil => exact fun s s' => .inStep (.fail rfl rfl)
  | cons op ops ih =>
    obtain ⟨hop, hnodup⟩ := List.nodup_cons.mp hnodup
    by_cases hnext : ts[m]? = some (.symbol op.symbol)
    · have hne : ∀ other ∈ ops, ts[m]? ≠ some (.symbol other.symbol) := by
        intro other hmem eq
        rw [hnext] at eq
        exact hop (BinOp.symbol_inj (by simpa using eq) ▸ hmem)
      refine (meets_binary hts hfuel hM hkm hmn.le op hw first first' left
        left').orElse_of_refuses ?_ ?_ ?_
      · refine retains_choice fun p hp => ?_
        obtain ⟨other, hmem, rfl⟩ := List.mem_map.mp hp
        exact retains_token_then (hne other hmem) _
      · refine refuses_choice fun p hp => ?_
        obtain ⟨other, hmem, rfl⟩ := List.mem_map.mp hp
        exact (hrefuses other (hne other hmem)).1
      · refine refuses_choice fun p hp => ?_
        obtain ⟨other, hmem, rfl⟩ := List.mem_map.mp hp
        exact (hrefuses other (hne other hmem)).2
    · exact (inStep_of_refuses (hrefuses op hnext).1 (hrefuses op hnext).2).orElse (ih hnodup)

theorem meets_step (hkm : k ≤ m) (hmn : m ≤ n) (hw : Welcome ts extensions m) (power : Nat)
    (first first' : Nat) (left left' : NodeId) :
    (step fuel power first left).Meets ts ts' n (MayStop ts n) m
      (step fuel' power first' left') := by
  rcases Nat.lt_or_eq_of_le hmn with hlt | rfl
  · have hnodup : (BinOp.all.filter (power ≤ 2 * ·.level)).Nodup :=
      List.Nodup.filter _ (by decide)
    have hoperators := meets_operators hts hfuel hM hkm hlt hw first first' left left' hnodup
    by_cases hdot : ts[m]? = some (.symbol .dot)
    · have hne : ∀ op : BinOp, ts[m]? ≠ some (.symbol op.symbol) := fun op => by
        rw [hdot]
        cases op <;> simp [BinOp.symbol]
      refine (meets_access hts hfuel hfuel' hM hkm hmn (hw.mono access_le) first first' left
        left').orElse_of_refuses ?_ ?_ ?_
      · refine retains_choice fun p hp => ?_
        obtain ⟨op, -, rfl⟩ := List.mem_map.mp hp
        exact retains_token_then (hne op) _
      · refine refuses_choice fun p hp => ?_
        obtain ⟨op, -, rfl⟩ := List.mem_map.mp hp
        exact refuses_token_then (hne op) _
      · refine refuses_choice fun p hp => ?_
        obtain ⟨op, -, rfl⟩ := List.mem_map.mp hp
        exact refuses_token_then (by rw [← getElem?_eq_of_take hts hlt]; exact hne op) _
    · have haccess : (Bare.access (inner fuel) first left).InStep ts ts' n m
          (Bare.access (inner fuel') first' left') :=
        inStep_of_refuses (refuses_token_then hdot _)
          (refuses_token_then (by rwa [← getElem?_eq_of_take hts hlt]) _)
      exact haccess.orElse hoperators
  · exact meets_of_reports (reports_step (reports_inside hfuel) hkm power first left) hw
      fun h => h.1 rfl

omit hfuel' in
/-- Where an extension is read on the other list only, none can be read on this one. -/
theorem mayStop_of_step (hkm : k ≤ m) (hmn : m ≤ n) (hw : Welcome ts extensions m) {power : Nat}
    {first first' : Nat} {left left' : NodeId} {s s' : Builder}
    (hr : (step fuel power first left (place ts m) s).result = none)
    (hr' : (step fuel' power first' left' (place ts' m) s').result ≠ none) : MayStop ts n m := by
  rcases Nat.lt_or_eq_of_le hmn with hlt | rfl
  · refine .inr ?_
    obtain ⟨⟨a, j⟩, hread⟩ := Option.ne_none_iff_exists'.mp hr'
    obtain ⟨p, hp, u, hread⟩ := Reads.of_choice ⟨hread, rfl⟩
    rcases List.mem_cons.mp hp with rfl | hp
    · obtain ⟨_, l, _, hdot, -⟩ := reads_bind.mp hread
      have hnext := (takes_place.mp (reads_symbol.mp hdot).1).1
      rw [← getElem?_eq_of_take hts hlt] at hnext
      obtain ⟨v, hv⟩ := exists_none_of_choice hr _ List.mem_cons_self
      exact blocked_of_dot hnext hw (by omega) hv
    · obtain ⟨op, hop, rfl⟩ := List.mem_map.mp hp
      obtain ⟨_, l, t, hsymbol, hread⟩ := reads_bind.mp hread
      obtain ⟨hnext, rfl⟩ := takes_place.mp (reads_symbol.mp hsymbol).1
      rw [← getElem?_eq_of_take hts hlt] at hnext
      obtain ⟨right, l, t', hright, -⟩ := reads_bind.mp hread
      -- so the right side was not read on this list, and that was past the common tokens
      obtain ⟨v, hv⟩ := exists_none_of_choice hr _
        (List.mem_cons_of_mem _ (List.mem_map_of_mem hop))
      have hnone : (Bare.operand fuel (2 * op.level + 1) (place ts (m + 1)) v).result = none := by
        rw [Bare.binary, symbol, token_then hnext] at hv
        by_contra hsome
        obtain ⟨⟨b, j'⟩, hb⟩ := Option.ne_none_iff_exists'.mp hsome
        rw [bind_of_some hb] at hv
        cases hv
      have hspans : Spans (place ts m) [.symbol op.symbol] (place ts (m + 1)) :=
        .cons (takes_place.mpr ⟨hnext, rfl⟩) rfl (.nil _)
      have hmeets := hM (2 * op.level + 1) (m + 1) (by omega) hlt
        ((hw.mono (binary_le op)).right rfl hspans) v t
      refine blocked_of_operator hnext (by omega) hnone ?_
      cases hmeets with
      | inStep h =>
        cases h with
        | fail _ h' =>
          rw [hright.1] at h'
          cases h'
        | read h =>
          rw [hnone] at h
          cases h
      | past hfail => exact hfail hnone
  · exact .inl (Nat.le_refl m)

/-! ## The row of extensions -/

omit hts hfuel' hM in
/-- From a place where an operand may stop short, the row of extensions ends there or goes past. -/
theorem settles_extendWithin (power first turns : Nat) : ∀ left m, k ≤ m →
    Welcome ts (extensions∗) m → MayStop ts n m → ∀ s,
      (extendWithin (step fuel power first) turns left (place ts m) s).Settles ts n
        (MayStop ts n) := by
  have hstep : ∀ left m, k ≤ m → (step fuel power first left).Reports ts False extensions m :=
    fun left m hm => reports_step (reports_inside hfuel) hm power first left
  have hone : extensions ≤ extensions∗ := le_kstar
  induction turns with
  | zero =>
    intro left m _ _ hstop s
    refine ⟨nofun, ?_⟩
    rintro _ _ ⟨⟩
    exact .inr ⟨hstop, fun g hg => hg⟩
  | succ turns ih =>
    intro left m hkm hw hstop s
    have attempt := hstep left m hkm (hw.mono hone) s
    cases hr : (step fuel power first left (place ts m) s).result with
    | none =>
      have retains := hstop.retains_step hfuel hkm (hstep left m hkm) (hw.mono hone) s
      rw [extendWithin_of_none hr]
      refine ⟨nofun, ?_⟩
      rintro _ _ ⟨⟩
      exact .inr ⟨hstop, retains⟩
    | some r =>
      obtain ⟨b, j⟩ := r
      obtain ⟨us, ⟨hne, hus⟩, hs⟩ := attempt.lands b j hr
      obtain rfl := hs.eq_place
      have hpos := List.length_pos_iff.mpr hne
      have hle : n ≤ m := hstop.le_of_reads hfuel hkm (by rw [hr]; nofun)
      have hrest : Welcome ts (extensions∗) (m + us.length) :=
        (hw.mono mul_kstar_le_kstar).right ⟨hne, hus⟩ hs
      have later := reports_extendWithin (k := m) (fun a l hl => hstep a l (by omega)) turns b
        (m + us.length) (by omega) hrest (step fuel power first left (place ts m) s).state
      rw [extendWithin_of_some hr]
      refine ⟨fun hnone g _ => (later.marks hnone _).mono (by omega), fun c l hc => .inl ?_⟩
      obtain ⟨vs, -, hvs⟩ := later.lands c _ hc
      have hl : l = m + us.length + vs.length := congrArg Input.pos hvs.eq_place
      omega

/-- Where no extension is read, the rows end on both lists or this one may stop here. -/
theorem meets_extendWithin_of_none (hkm : k ≤ m) (hmn : m ≤ n) (hw : Welcome ts extensions m)
    {power first first' : Nat} {left left' : NodeId} {s s' : Builder}
    (hr : (step fuel power first left (place ts m) s).result = none) (turns turns' : Nat) :
    (extendWithin (step fuel power first) (turns + 1) left (place ts m) s).Meets ts ts' n
      (MayStop ts n)
      (extendWithin (step fuel' power first') (turns' + 1) left' (place ts' m) s') := by
  rw [extendWithin_of_none hr]
  by_cases hr' : (step fuel' power first' left' (place ts' m) s').result = none
  · rw [extendWithin_of_none hr']
    exact .inStep (.read rfl rfl hmn)
  · have hstop := mayStop_of_step hts hfuel hM hkm hmn hw hr hr'
    refine .past nofun ?_
    rintro _ l ⟨⟩
    refine .inr ⟨hstop, ?_⟩
    cases meets_step hts hfuel hfuel' hM hkm hmn hw power first first' left left' s s' with
    | inStep h =>
      cases h with
      | fail _ h' => exact absurd h' hr'
      | read h => exact absurd (hr.symm.trans h) nofun
    | past hfail => exact hfail hr

/-- The rows of extensions end at the same place, or this one ends past the common tokens. -/
theorem meets_extendWithin (power first first' turns : Nat) : ∀ turns' left left' m, k ≤ m →
    m ≤ n → Welcome ts (extensions∗) m → ts.length < m + turns → ts'.length < m + turns' →
      (extendWithin (step fuel power first) turns left).Meets ts ts' n (MayStop ts n) m
        (extendWithin (step fuel' power first') turns' left') := by
  have hstep : ∀ left m, k ≤ m → (step fuel power first left).Reports ts False extensions m :=
    fun left m hm => reports_step (reports_inside hfuel) hm power first left
  induction turns with
  | zero =>
    intro _ _ _ m _ _ hw hlt
    have := hw.1
    omega
  | succ turns ih =>
    intro turns' left left' m hkm hmn hw hlt hlt' s s'
    have hle := length_of_take hts hmn hw.1
    obtain ⟨turns', rfl⟩ : ∃ l, turns' = l + 1 := ⟨turns' - 1, by omega⟩
    have hone : Welcome ts extensions m := hw.mono le_kstar
    cases hr : (step fuel power first left (place ts m) s).result with
    | none => exact meets_extendWithin_of_none hts hfuel hfuel' hM hkm hmn hone hr turns turns'
    | some r =>
      obtain ⟨b, j⟩ := r
      obtain ⟨us, hus, hs⟩ := (hstep left m hkm hone s).lands b j hr
      obtain rfl := hs.eq_place
      have hpos := List.length_pos_iff.mpr hus.1
      have hrest : Welcome ts (extensions∗) (m + us.length) :=
        (hw.mono mul_kstar_le_kstar).right hus hs
      rw [extendWithin_of_some hr]
      cases meets_step hts hfuel hfuel' hM hkm hmn hone power first first' left left' s s' with
      | inStep h =>
        cases h with
        | fail h => exact absurd (hr.symm.trans h) nofun
        | @read a a' l h h' hl =>
          obtain rfl : m + us.length = l := Outcome.pos_eq_of_result hr h
          rw [extendWithin_of_some h']
          exact (ih turns' _ _ _ (by omega) hl hrest (by omega) (by omega) _ _).after _ _
      | past _ hread =>
        rcases hread b _ hr with hlt | ⟨hstop, hpast⟩
        · exact Outcome.meets_of_lt (reports_extendWithin hstep turns b _ (by omega) hrest _) hlt
        · exact (settles_extendWithin hfuel power first turns b _ (by omega) hrest hstop _).meets
            hpast

theorem meets_extend (power first first' : Nat) (left left' : NodeId) (hkm : k ≤ m) (hmn : m ≤ n)
    (hw : Welcome ts (extensions∗) m) :
    (extend (step fuel power first) left).Meets ts ts' n (MayStop ts n) m
      (extend (step fuel' power first') left') := by
  intro s s'
  have hlt : ts.length < m + ((place ts m).rest.length + 1) := by
    rw [place_rest_length]
    omega
  have hlt' : ts'.length < m + ((place ts' m).rest.length + 1) := by
    rw [place_rest_length]
    omega
  exact meets_extendWithin hts hfuel hfuel' hM power first first' _ _ left left' m hkm hmn hw hlt
    hlt' s s'

/-- One more level, given the operands inside. -/
theorem meets_operandWith (power : Nat) (hkn : k ≤ n) (hw : Welcome ts (phrases .expr) k)
    (hlacks : k < n → ¬ LacksOperand ts k) :
    (Bare.operand (fuel + 1) power).Meets ts ts' n (MayStop ts n) k
      (Bare.operand (fuel' + 1) power) := by
  have hone : Welcome ts (phrases .expr * extensions∗) k := hw.mono mul_kstar_extensions_le
  refine Meets.position (Meets.bind (d := False) hone ⟨[], Language.nil_mem_kstar _⟩
    (reports_start (reports_inside hfuel) (Nat.le_refl k))
    (meets_start hts hfuel hfuel' hM (Nat.le_refl k) hkn hw hlacks) ?_ ?_ ?_)
  · exact fun left us _ _ => Reports.extend
      (fun left m hm => reports_step (reports_inside hfuel) (by omega) power k left) left
  · exact fun left left' us _ _ hle hrest =>
      meets_extend hts hfuel hfuel' hM power k k left left' (by omega) hle hrest
  · exact fun left us _ _ hrest hstop =>
      settles_extendWithin hfuel power k _ left _ (by omega) hrest hstop

end

/--
On token lists that begin alike, an operand is read or refused alike as far as no prefix operator
among the common tokens lacks its operand.
-/
theorem meets_operand (hts : ts.take n = ts'.take n) (hlacks : ∀ q < n, ¬ LacksOperand ts q)
    (fuel : Nat) : ∀ fuel' power k, ts.length < k + fuel → ts'.length < k + fuel' → k ≤ n →
      Welcome ts (phrases .expr) k →
      (Bare.operand fuel power).Meets ts ts' n (MayStop ts n) k (Bare.operand fuel' power) := by
  induction fuel with
  | zero =>
    intro _ _ k hlt _ _ hw
    have := hw.1
    omega
  | succ fuel ih =>
    intro fuel' power k hlt hlt' hkn hw
    have hle := length_of_take hts hkn hw.1
    obtain ⟨fuel', rfl⟩ : ∃ l, fuel' = l + 1 := ⟨fuel' - 1, by omega⟩
    exact meets_operandWith hts (by omega) (by omega)
      (fun power m hm hmn hw => ih fuel' power m (by omega) (by omega) hmn hw) power hkn hw
      (hlacks k)

end Expr

theorem tracks_expression (hts : ts.take n = ts'.take n)
    (hlacks : ∀ q < n, ¬ LacksOperand ts q) :
    expression.Tracks ts ts' n (phrases .expr) k expression where
  reports := reports_expression
  meets hw hk := by
    rw [expression_eq]
    intro s s'
    have h := Expr.meets_operand hts hlacks ((place ts k).rest.length + 1)
      ((place ts' k).rest.length + 1) 0 k (by rw [place_rest_length]; omega)
      (by rw [place_rest_length]; omega) hk hw
    exact ((h.named .expression).mono fun _ _ => trivial) s s'

end Grammar

end FlatScope
