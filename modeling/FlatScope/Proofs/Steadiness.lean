import FlatScope.Proofs.Operands
import FlatScope.Proofs.Reports

/-!
# What was built does not matter

`p.Alike p' i`: from place `i` on `p` and `p'` read the same tokens and leave the same marks, in any
two states. An operand is read alike with any fuel above the number of tokens left
(`alike_operand`), so that a second attempt at a place repeats the first.
-/

namespace FlatScope.Grammar

namespace Outcome

variable {σ α : Type}

/-- The same tokens are read, or none, and the marks are the same. -/
def Alike (o o' : Outcome σ α) : Prop :=
  o.result.map Prod.snd = o'.result.map Prod.snd ∧ o.note = o'.note

/-- Both failed, or both read up to the same place. -/
theorem Alike.cases {o o' : Outcome σ α} (h : o.Alike o') :
    (o.result = none ∧ o'.result = none) ∨
      ∃ a a' j, o.result = some (a, j) ∧ o'.result = some (a', j) := by
  have hr := h.1
  cases ho : o.result with
  | none =>
    rw [ho] at hr
    exact .inl ⟨rfl, by simpa using hr.symm⟩
  | some r =>
    obtain ⟨a, j⟩ := r
    rw [ho] at hr
    obtain ⟨⟨a', j'⟩, ho', rfl⟩ := Option.map_eq_some_iff.mp hr.symm
    exact .inr ⟨a, a', j', rfl, ho'⟩

theorem Alike.result_eq_none {o o' : Outcome σ α} (h : o.Alike o') (hr : o.result = none) :
    o'.result = none := by
  rcases h.cases with ⟨-, hr'⟩ | ⟨a, a', j, ha, -⟩
  · exact hr'
  · rw [hr] at ha
    cases ha

/-- What went before does not matter if its marks were the same. -/
theorem Alike.after {β : Type} {o o' : Outcome σ α} {first first' : Outcome σ β} (h : o.Alike o')
    (hn : first.note = first'.note) : (o.after first).Alike (o'.after first') :=
  ⟨h.1, by simp only [Outcome.after, hn, h.2]⟩

end Outcome

namespace Parser

variable {σ α β : Type} {p p' q q' : Parser σ α} {i : Input}

def Alike (p p' : Parser σ α) (i : Input) : Prop := ∀ s s', (p i s).Alike (p' i s')

theorem Silent.alike (h : p.Silent) (h' : p'.Silent) : p.Alike p' i := by
  intro s s'
  obtain ⟨a, t, h⟩ := h i s
  obtain ⟨a', t', h'⟩ := h' i s'
  rw [h, h']
  exact ⟨rfl, rfl⟩

theorem alike_satisfy (item : Item) (f : Token → Option α) :
    (satisfy item f : Parser σ α).Alike (satisfy item f) i := by
  intro s s'
  unfold satisfy
  cases i.rest with
  | nil => exact ⟨rfl, rfl⟩
  | cons t ts =>
    simp only
    cases f t with
    | none => exact ⟨rfl, rfl⟩
    | some a => exact ⟨rfl, rfl⟩

theorem alike_symbol (x : Symbol) : (symbol x : Parser σ Unit).Alike (symbol x) i :=
  alike_satisfy _ _

theorem alike_decoded (decode : String → Option α) :
    (decoded decode : Parser σ α).Alike (decoded decode) i := by
  intro s s'
  unfold decoded
  split
  · next raw ts h =>
    simp only
    cases decode raw with
    | none => exact ⟨rfl, rfl⟩
    | some a => exact ⟨rfl, rfl⟩
  · exact ⟨rfl, rfl⟩

theorem Alike.bind {f f' : α → Parser σ β} (hp : p.Alike p' i)
    (hf : ∀ s a j t, p.Reads i s a j t → ∀ a', (f a).Alike (f' a') j) :
    (p >>= f).Alike (p' >>= f') i := by
  intro s s'
  have hn := (hp s s').2
  rcases (hp s s').cases with ⟨h, h'⟩ | ⟨a, a', j, h, h'⟩
  · rw [bind_of_none h, bind_of_none h']
    exact ⟨rfl, hn⟩
  · rw [bind_of_some h, bind_of_some h']
    exact (hf s a j _ ⟨h, rfl⟩ a' _ _).after hn

theorem Alike.then_silent {f f' : α → Parser σ β} (hp : p.Alike p' i) (hf : ∀ a, (f a).Silent)
    (hf' : ∀ a, (f' a).Silent) : (p >>= f).Alike (p' >>= f') i :=
  hp.bind fun _ a _ _ _ a' => (hf a).alike (hf' a')

theorem Alike.orElse (hp : p.Alike p' i) (hq : q.Alike q' i) :
    (orElse p q).Alike (orElse p' q') i := by
  intro s s'
  rcases (hp s s').cases with ⟨h, h'⟩ | ⟨a, a', j, h, h'⟩
  · rw [orElse_of_none h, orElse_of_none h']
    exact (hq _ _).after (hp s s').2
  · rw [orElse_of_some h, orElse_of_some h']
    exact hp s s'

theorem Alike.branch {f f' : Option α → Parser σ β} (hp : p.Alike p' i)
    (hsome : ∀ s a j t, p.Reads i s a j t → ∀ a', (f (some a)).Alike (f' (some a')) j)
    (hnone : (f none).Alike (f' none) i) :
    (optional p >>= f).Alike (optional p' >>= f') i := by
  intro s s'
  have hn := (hp s s').2
  rcases (hp s s').cases with ⟨h, h'⟩ | ⟨a, a', j, h, h'⟩
  · rw [optional_bind_of_none h, optional_bind_of_none h']
    exact (hnone _ _).after hn
  · rw [optional_bind_of_some h, optional_bind_of_some h']
    exact (hsome s a j _ ⟨h, rfl⟩ a' _ _).after hn

theorem alike_fail : (fail : Parser σ α).Alike fail i := fun _ _ => ⟨rfl, rfl⟩

theorem Alike.named (hp : p.Alike p' i) (phrase : Phrase) :
    (named phrase p).Alike (named phrase p') i := by
  intro s s'
  obtain ⟨hr, hn⟩ := hp s s'
  exact ⟨hr, by simp only [Parser.named, hn]⟩

/-! ## Repetition -/

theorem alike_many (hp : ∀ j, j.rest.length ≤ i.rest.length → p.Alike p' j)
    (hle : ∀ j s a l t, p.Reads j s a l t → l.rest.length ≤ j.rest.length) :
    (many p).Alike (many p') i := by
  have go : ∀ fuel j, j.rest.length ≤ i.rest.length →
      (manyWithin p fuel).Alike (manyWithin p' fuel) j := by
    intro fuel
    induction fuel with
    | zero => exact fun j _ => (silent_pure []).alike (silent_pure [])
    | succ fuel ih =>
      intro j hj
      refine (hp j hj).branch (fun s a l t hr a' => ?_) ((silent_pure []).alike (silent_pure []))
      have := hle j s a l t hr
      exact (ih l (by omega)).then_silent (fun _ => silent_pure _) fun _ => silent_pure _
  exact go _ i (Nat.le_refl _)

theorem alike_extend {step step' : α → Parser σ α}
    (hstep : ∀ a a' j, j.rest.length ≤ i.rest.length → (step a).Alike (step' a') j)
    (hle : ∀ a j s b l t, (step a).Reads j s b l t → l.rest.length ≤ j.rest.length) (a a' : α) :
    (extend step a).Alike (extend step' a') i := by
  have go : ∀ fuel a a' j, j.rest.length ≤ i.rest.length →
      (extendWithin step fuel a).Alike (extendWithin step' fuel a') j := by
    intro fuel
    induction fuel with
    | zero => exact fun a a' j _ => (silent_pure a).alike (silent_pure a')
    | succ fuel ih =>
      intro a a' j hj
      refine (hstep a a' j hj).branch (fun s b l t hr b' => ?_)
        ((silent_pure a).alike (silent_pure a'))
      have := hle a j s b l t hr
      exact ih b b' l (by omega)
  exact go _ a a' i (Nat.le_refl _)

theorem alike_choice_map {ι : Type} {f f' : ι → Parser σ α} {xs : List ι}
    (h : ∀ x ∈ xs, (f x).Alike (f' x) i) : (choice (xs.map f)).Alike (choice (xs.map f')) i := by
  induction xs with
  | nil => exact alike_fail
  | cons x xs ih =>
    obtain ⟨hx, hxs⟩ := List.forall_mem_cons.mp h
    exact hx.orElse (ih hxs)

end Parser

/-! ## Expressions -/

open FlatScope.Grammar.Parser

namespace Expr

variable {i : Input} {expr expr' : TreeParser NodeId}

theorem alike_arguments (hE : ∀ j, j.rest.length < i.rest.length → expr.Alike expr' j)
    (hS : expr.Sound Expr.words) : (arguments expr).Alike (arguments expr') i := by
  refine Alike.named ?_ _
  refine (silent_position.alike silent_position).bind fun s first j t hr first' => ?_
  obtain ⟨-, rfl, -⟩ := reads_position.mp hr
  have shorter : ∀ j s a l t, expr.Reads j s a l t → l.rest.length ≤ j.rest.length := by
    intro j s a l t hr
    obtain ⟨e, he⟩ := hS.spans hr
    exact he.rest_le
  have items : ∀ j, j.rest.length < i.rest.length →
      (separatedBy expr (symbol .comma)).Alike (separatedBy expr' (symbol .comma)) j := by
    intro j hj
    refine (hE j hj).branch (fun s a l t hr a' => ?_) ((silent_pure []).alike (silent_pure []))
    have hl := shorter j s a l t hr
    refine (alike_many ?_ ?_).then_silent (fun _ => silent_pure _) fun _ => silent_pure _
    · intro m hm
      refine (alike_symbol _).bind fun s a n t hr _ => hE n ?_
      have := (reads_symbol.mp hr).1.rest_lt
      omega
    · intro m s a n t hr
      obtain ⟨_, n', t', hn, hr⟩ := reads_bind.mp hr
      have := (reads_symbol.mp hn).1.rest_lt
      have := shorter n' t' a n t hr
      omega
  refine Alike.then_silent ?_ (fun _ => silent_build _) fun _ => silent_build _
  refine (alike_symbol _).bind fun s a j t hr _ => ?_
  refine (items j (reads_symbol.mp hr).1.rest_lt).bind fun s a j t hr _ => ?_
  exact (alike_symbol _).then_silent (fun _ => silent_pure _) fun _ => silent_pure _

theorem alike_identifier {σ : Type} : (identifier : Parser σ String).Alike identifier i :=
  (alike_satisfy _ _).named _

/-- Behind a name there may be arguments. -/
theorem alike_optional_arguments {α : Type} (hE : ∀ j, j.rest.length < i.rest.length →
      expr.Alike expr' j) (hS : expr.Sound Expr.words)
    {f f' : Option NodeId → TreeParser α} (hf : ∀ o, (f o).Silent) (hf' : ∀ o, (f' o).Silent) :
    (optional (arguments expr) >>= f).Alike (optional (arguments expr') >>= f') i :=
  (alike_arguments hE hS).branch (fun _ _ _ _ _ _ => (hf _).alike (hf' _))
    ((hf none).alike (hf' none))

theorem alike_atom (hE : ∀ j, j.rest.length < i.rest.length → expr.Alike expr' j)
    (hS : expr.Sound Expr.words) : (Bare.atom expr).Alike (Bare.atom expr') i := by
  have later : ∀ {x : Token} {j : Input}, i.Takes x j →
      ∀ l, l.rest.length < j.rest.length → expr.Alike expr' l := fun hj l hl =>
    hE l (by have := hj.rest_lt; omega)
  have hcreation : (creation expr).Alike (creation expr') i := by
    refine (alike_satisfy _ _).bind fun s _ j t hr _ => ?_
    have hj := (reads_keyword.mp hr).1
    refine alike_identifier.bind fun s name l t hr name' => ?_
    have hl := (reads_identifier.mp hr).1.rest_lt
    exact (alike_arguments (fun m hm => later hj m (by omega)) hS).then_silent
      (fun _ => silent_pure _) fun _ => silent_pure _
  have hname : (nameOrCall expr).Alike (nameOrCall expr') i := by
    refine alike_identifier.bind fun s name j t hr name' => ?_
    exact alike_optional_arguments (later (reads_identifier.mp hr).1) hS (fun _ => silent_pure _)
      fun _ => silent_pure _
  have hparen : (parenthesized expr).Alike (parenthesized expr') i := by
    refine Alike.then_silent ?_ (fun _ => silent_pure _) fun _ => silent_pure _
    refine (alike_symbol _).bind fun s _ j t hr _ => ?_
    refine (hE j (reads_symbol.mp hr).1.rest_lt).bind fun s a l t hr _ => ?_
    exact (alike_symbol _).then_silent (fun _ => silent_pure _) fun _ => silent_pure _
  refine (silent_position.alike silent_position).bind fun s first j t hr first' => ?_
  obtain ⟨-, rfl, -⟩ := reads_position.mp hr
  refine Alike.then_silent ?_ (fun _ => silent_build _) fun _ => silent_build _
  exact (alike_satisfy _ _).orElse ((alike_decoded _).orElse (hcreation.orElse
    (hname.orElse (hparen.orElse alike_fail))))

theorem alike_access (hE : ∀ j, j.rest.length < i.rest.length → expr.Alike expr' j)
    (hS : expr.Sound Expr.words) (first first' : Nat) (left left' : NodeId) :
    (Bare.access expr first left).Alike (Bare.access expr' first' left') i := by
  refine (alike_symbol _).bind fun s _ j t hr _ => ?_
  have hj := (reads_symbol.mp hr).1.rest_lt
  refine alike_identifier.bind fun s name l t hr name' => ?_
  have hl := (reads_identifier.mp hr).1.rest_lt
  exact alike_optional_arguments (fun m hm => hE m (by omega)) hS (fun _ => silent_build _)
    fun _ => silent_build _

variable {fuel fuel' : Nat}

theorem alike_unary (hO : ∀ j, j.rest.length < i.rest.length →
      (Bare.operand fuel unaryPower).Alike (Bare.operand fuel' unaryPower) j) (op : UnOp) :
    (Bare.unary (Bare.operand fuel) op).Alike (Bare.unary (Bare.operand fuel') op) i := by
  refine (silent_position.alike silent_position).bind fun s first j t hr first' => ?_
  obtain ⟨-, rfl, -⟩ := reads_position.mp hr
  refine (alike_symbol _).bind fun s _ j t hr _ => ?_
  exact (hO j (reads_symbol.mp hr).1.rest_lt).then_silent (fun _ => silent_build _)
    fun _ => silent_build _

theorem alike_binary (hO : ∀ power j, j.rest.length < i.rest.length →
      (Bare.operand fuel power).Alike (Bare.operand fuel' power) j) (op : BinOp)
    (first first' : Nat) (left left' : NodeId) :
    (Bare.binary (Bare.operand fuel) first left op).Alike
      (Bare.binary (Bare.operand fuel') first' left' op) i := by
  refine (alike_symbol _).bind fun s _ j t hr _ => ?_
  exact (hO _ j (reads_symbol.mp hr).1.rest_lt).then_silent (fun _ => silent_build _)
    fun _ => silent_build _

/-- The expressions inside an operand. -/
abbrev inner (fuel : Nat) : TreeParser NodeId := named .expression (Bare.operand fuel 0)

theorem inner_sound (fuel : Nat) : (inner fuel).Sound Expr.words := operand_sound fuel 0

theorem start_sound (fuel : Nat) : (start fuel).Sound Expr.words := by
  intro i b _ j d h
  obtain ⟨p, hp, u, hr⟩ := h.of_choice
  simp only [List.mem_cons, List.not_mem_nil, or_false] at hp
  rcases hp with rfl | rfl | rfl
  · exact (unary_sound (operand_sound fuel) .not).spans hr
  · exact (unary_sound (operand_sound fuel) .neg).spans hr
  · exact (atom_sound (inner_sound fuel)).spans hr

/-- An extension takes a token of its own. -/
theorem rest_lt_of_reads_step {power first : Nat} {left id : NodeId} {i j : Input} {b c : Builder}
    (h : (step fuel power first left).Reads i b id j c) : j.rest.length < i.rest.length := by
  obtain ⟨p, hp, u, hr⟩ := h.of_choice
  rcases List.mem_cons.mp hp with rfl | hp
  · simp only [Bare.access, reads_bind, reads_symbol, reads_identifier] at hr
    obtain ⟨_, k, _, ⟨hk, rfl⟩, _, k', _, ⟨hk', rfl⟩, _, l, _, hargs, hnode⟩ := hr
    obtain ⟨_, hargs⟩ := (optional_arguments_sound (inner_sound fuel)).spans hargs
    obtain rfl := eq_of_reads_node hnode
    have := hargs.rest_le
    have := hk.rest_lt
    have := hk'.rest_lt
    omega
  · obtain ⟨op, -, rfl⟩ := List.mem_map.mp hp
    simp only [Bare.binary, reads_bind, reads_symbol] at hr
    obtain ⟨_, k, _, ⟨hk, rfl⟩, _, l, _, hright, hnode⟩ := hr
    obtain ⟨e, he⟩ := (operand_sound fuel _).spans hright
    obtain rfl := eq_of_reads_node hnode
    have := he.rest_le
    have := hk.rest_lt
    omega

theorem alike_inner (hO : ∀ power j, j.rest.length < i.rest.length →
      (Bare.operand fuel power).Alike (Bare.operand fuel' power) j) :
    ∀ j, j.rest.length < i.rest.length → (inner fuel).Alike (inner fuel') j :=
  fun j hj => (hO 0 j hj).named _

theorem alike_step (hO : ∀ power j, j.rest.length < i.rest.length →
      (Bare.operand fuel power).Alike (Bare.operand fuel' power) j) (power first first' : Nat)
    (left left' : NodeId) :
    (step fuel power first left).Alike (step fuel' power first' left') i :=
  (alike_access (alike_inner hO) (inner_sound fuel) first first' left left').orElse
    (alike_choice_map fun op _ => alike_binary hO op first first' left left')

/-- Above the number of tokens left, fuel does not matter. -/
theorem alike_operand (fuel fuel' power : Nat) (i : Input) (h : i.rest.length < fuel)
    (h' : i.rest.length < fuel') :
    (Bare.operand fuel power).Alike (Bare.operand fuel' power) i := by
  induction fuel generalizing fuel' power i with
  | zero => omega
  | succ fuel ih =>
    obtain ⟨fuel', rfl⟩ : ∃ n, fuel' = n + 1 := ⟨fuel' - 1, by omega⟩
    have hO : ∀ power j, j.rest.length < i.rest.length →
        (Bare.operand fuel power).Alike (Bare.operand fuel' power) j := fun power j hj =>
      ih fuel' power j (by omega) (by omega)
    have hstart : (start fuel).Alike (start fuel') i :=
      (alike_unary (hO _) .not).orElse ((alike_unary (hO _) .neg).orElse
        ((alike_atom (alike_inner hO) (inner_sound fuel)).orElse alike_fail))
    refine (silent_position.alike silent_position).bind fun s first j t hr first' => ?_
    obtain ⟨-, rfl, -⟩ := reads_position.mp hr
    refine hstart.bind fun s left j t hr left' => ?_
    obtain ⟨e, he⟩ := (start_sound fuel).spans hr
    have hj := he.rest_le
    refine alike_extend (fun left left' l hl => ?_) ?_ left left'
    · exact alike_step (fun power m hm => hO power m (by omega)) power _ _ left left'
    · exact fun left l s b m t hr => Nat.le_of_lt (rest_lt_of_reads_step hr)

end Expr

/-! ## Reading cannot fail where an expression stands -/

namespace Parser

variable {σ α β : Type} {p q : Parser σ α} {i : Input}

/-- Succeeds at `i` in every state. -/
def Sure (p : Parser σ α) (i : Input) : Prop := ∀ s, (p i s).result ≠ none

theorem Silent.sure (h : p.Silent) : p.Sure i := by
  intro s
  obtain ⟨a, t, h⟩ := h i s
  rw [h]
  nofun

theorem sure_of_reads {j : Input} {a : α} (h : ∀ s, p.Reads i s a j s) : p.Sure i := by
  intro s hr
  rw [(h s).1] at hr
  cases hr

/-- What is read in one state is read in every state. -/
theorem Reads.again {j : Input} {s t : σ} {a : α} (h : p.Reads i s a j t) (hp : p.Alike p i)
    (s' : σ) : ∃ a', (p i s').result = some (a', j) := by
  rcases (hp s s').cases with ⟨hr, -⟩ | ⟨b, b', l, hr, hr'⟩
  · rw [h.1] at hr
    cases hr
  · rw [h.1] at hr
    cases hr
    exact ⟨b', hr'⟩

theorem Reads.sure {j : Input} {s t : σ} {a : α} (h : p.Reads i s a j t) (hp : p.Alike p i) :
    p.Sure i := by
  intro s' hr
  obtain ⟨a', hr'⟩ := h.again hp s'
  rw [hr'] at hr
  cases hr

theorem Sure.bind {f : α → Parser σ β} (hp : p.Sure i)
    (hf : ∀ s a j t, p.Reads i s a j t → (f a).Sure j) : (p >>= f).Sure i := by
  intro s
  obtain ⟨⟨a, j⟩, hr⟩ := Option.ne_none_iff_exists'.mp (hp s)
  rw [bind_of_some hr]
  exact hf s a j _ ⟨hr, rfl⟩ _

theorem Sure.position {f : Nat → Parser σ α} (h : (f i.pos).Sure i) :
    (Parser.position >>= f).Sure i := h

theorem Sure.orElse (h : p.Sure i ∨ q.Sure i) : (orElse p q).Sure i := by
  intro s
  cases hr : (p i s).result with
  | none =>
    rw [orElse_of_none hr]
    exact (h.resolve_left fun hp => hp s hr) _
  | some r =>
    rw [orElse_of_some hr, hr]
    nofun

theorem Sure.choice {ps : List (Parser σ α)} (hp : p.Sure i) (hmem : p ∈ ps) :
    (choice ps).Sure i := by
  induction ps with
  | nil => cases hmem
  | cons q ps ih =>
    rcases List.mem_cons.mp hmem with rfl | hmem
    · exact Sure.orElse (.inl hp)
    · exact Sure.orElse (.inr (ih hmem))

theorem sure_optional (p : Parser σ α) : (Parser.optional p).Sure i :=
  Sure.orElse (.inr (silent_pure none).sure)

theorem sure_extend (step : α → Parser σ α) (a : α) : (extend step a).Sure i := by
  have go : ∀ fuel a i, (extendWithin step fuel a).Sure i := by
    intro fuel
    induction fuel with
    | zero => exact fun a i => (silent_pure a).sure
    | succ fuel ih =>
      intro a i
      refine (sure_optional (step a)).bind fun s o j t _ => ?_
      cases o with
      | none => exact (silent_pure a).sure
      | some b => exact ih b j
  exact go _ a i

theorem sure_symbol {x : Symbol} {j : Input} (h : i.Takes (.symbol x) j) :
    (symbol x : Parser σ Unit).Sure i :=
  sure_of_reads (a := ()) fun _ => reads_symbol.mpr ⟨h, rfl⟩

end Parser

namespace Expr

variable {fuel : Nat} {i j : Input} {e : Expr} {ws : List Word}

theorem readable_args (args : List Expr) : ∀ a ∈ args.map Expr.regroup, Readable a := by
  intro a ha
  obtain ⟨e, -, rfl⟩ := List.mem_map.mp ha
  exact readable _ e.grouped_regroup

theorem words_map_regroup (args : List Expr) :
    (args.map Expr.regroup).map Expr.words = args.map Expr.words := by
  simp [Expr.words_regroup]

theorem sure_atom (h : (Bare.atom (inner fuel)).Builds (.expr e) i j) (hle : i.rest.length ≤ fuel) :
    (Bare.atom (inner fuel)).Sure i := by
  obtain ⟨o, c, hr, -⟩ := h ⟨#[], 0, .empty 0⟩ rfl
  refine hr.sure (alike_atom (fun k hk => ?_) (inner_sound fuel))
  exact (alike_operand fuel fuel 0 k (by omega) (by omega)).named _

/-- One of the alternatives is enough. -/
theorem sure_atom_of_mem {p : TreeParser NodeKind} (hp : p.Sure i) (hmem : p ∈ [literal,
      stringLiteral, creation (inner fuel), nameOrCall (inner fuel), parenthesized (inner fuel)]) :
    (Bare.atom (inner fuel)).Sure i :=
  Sure.position ((hp.choice hmem).bind fun _ _ _ _ _ => (silent_build _).sure)

theorem sure_atom_of_literal {kind : NodeKind} (h : ∀ b : Builder, literal.Reads i b kind j b) :
    (Bare.atom (inner fuel)).Sure i :=
  sure_atom_of_mem (sure_of_reads h) List.mem_cons_self

/-- A name is an atom, whatever stands behind it. -/
theorem sure_atom_of_name {name : String} (h : i.Takes (.identifier name) j) :
    (Bare.atom (inner fuel)).Sure i := by
  have hname : (identifier : TreeParser String).Sure i :=
    sure_of_reads fun _ => reads_identifier.mpr ⟨h, rfl⟩
  have hcall : (nameOrCall (inner fuel)).Sure i := hname.bind fun _ _ _ _ _ =>
    (sure_optional _).bind fun _ _ _ _ _ => (silent_pure _).sure
  exact sure_atom_of_mem hcall (by simp)

/-- An operand starts where an expression does, whatever stands behind its first part. -/
theorem sure_start (h : Spans i (e.words ++ ws) j) (hle : i.rest.length ≤ fuel) :
    (start fuel).Sure i := by
  have atom_first : ∀ {fuel : Nat} {i : Input},
      (Bare.atom (inner fuel)).Sure i → (start fuel).Sure i :=
    fun hatom => hatom.choice (by simp)
  induction e generalizing fuel i ws with
  | int value =>
    obtain ⟨k, ht, -⟩ := spans_int.mp h
    exact atom_first (sure_atom_of_literal fun _ => reads_select.mpr ⟨⟨_, ht, rfl⟩, rfl⟩)
  | float value =>
    obtain ⟨k, ht, -⟩ := spans_float.mp h
    exact atom_first (sure_atom_of_literal fun _ => reads_select.mpr ⟨⟨_, ht, rfl⟩, rfl⟩)
  | string value =>
    obtain ⟨t, k, ht, hw, -⟩ := spans_cons.mp h
    obtain ⟨raw, rfl, hv⟩ := Token.word?_eq_text.mp hw
    exact atom_first (sure_atom (builds_string ht hv) hle)
  | null =>
    obtain ⟨k, ht, -⟩ := spans_keyword.mp h
    exact atom_first (sure_atom_of_literal fun _ => reads_select.mpr ⟨⟨_, ht, rfl⟩, rfl⟩)
  | this =>
    obtain ⟨k, ht, -⟩ := spans_keyword.mp h
    exact atom_first (sure_atom_of_literal fun _ => reads_select.mpr ⟨⟨_, ht, rfl⟩, rfl⟩)
  | name n =>
    obtain ⟨k, ht, -⟩ := spans_name.mp h
    exact atom_first (sure_atom_of_name ht)
  | call n args =>
    obtain ⟨k, ht, -⟩ := spans_name.mp h
    exact atom_first (sure_atom_of_name ht)
  | new className args =>
    rw [Expr.words, Expr.wordsOfEach_eq_map, ← words_map_regroup] at h
    obtain ⟨k, hi, h⟩ := spans_keyword.mp h
    obtain ⟨l, hk, h⟩ := spans_name.mp h
    obtain ⟨m, hargs, -⟩ := spans_append.mp h
    have hlt := hi.rest_lt
    have hlt' := hk.rest_lt
    have hb : (arguments (inner fuel)).Builds (.exprs (args.map Expr.regroup)) l m :=
      builds_arguments (readable_args args) (by omega) hargs
    exact atom_first (sure_atom (builds_creation hi hk hb) hle)
  | paren inside =>
    obtain ⟨m, h, -⟩ := spans_append.mp h
    obtain ⟨k, l, hi, hinner, hl⟩ := spans_inParens.mp h
    rw [← inside.words_regroup] at hinner
    have hlt := hi.rest_lt
    have hb : (inner fuel).Builds (.expr inside.regroup) k l :=
      (builds_operand inside.grouped_regroup (by omega) (Expr.fits_zero _) hinner
        (stops_of_next hl.next? rfl 0)).named _
    exact atom_first (sure_atom (builds_paren hi hb hl) hle)
  | field object member ih =>
    rw [Expr.words, List.append_assoc] at h
    exact ih h hle
  | method object member args ih =>
    rw [Expr.words, List.append_assoc] at h
    exact ih h hle
  | binary op left right ih =>
    rw [Expr.words, List.append_assoc] at h
    exact ih h hle
  | unary op operand ih =>
    obtain ⟨k, hi, h⟩ := spans_symbol.mp h
    have hlt := hi.rest_lt
    obtain ⟨fuel, rfl⟩ : ∃ n, fuel = n + 1 := ⟨fuel - 1, by omega⟩
    have hoperand : (Bare.operand (fuel + 1) unaryPower).Sure k :=
      Sure.position ((ih h (by omega)).bind fun _ _ _ _ _ => sure_extend _ _)
    have hunary : (Bare.unary (Bare.operand (fuel + 1)) op).Sure i := by
      refine Sure.position ((sure_symbol hi).bind fun s _ l t hr => ?_)
      obtain rfl := ((reads_symbol.mp hr).1.eq hi).2
      exact hoperand.bind fun _ _ _ _ _ => (silent_build _).sure
    exact hunary.choice (by cases op <;> simp)

/-- An operand is read where some expression stands. -/
theorem sure_operand (h : Spans i e.words j) (hlt : i.rest.length < fuel) (power : Nat) :
    (Bare.operand fuel power).Sure i := by
  obtain ⟨fuel, rfl⟩ : ∃ n, fuel = n + 1 := ⟨fuel - 1, by omega⟩
  have hs : Spans i (e.words ++ []) j := by rwa [List.append_nil]
  have hstart : (start fuel).Sure i := sure_start hs (by omega)
  exact Sure.position (hstart.bind fun _ _ _ _ _ => sure_extend _ _)

end Expr

end FlatScope.Grammar
