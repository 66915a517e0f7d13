import FlatScope.Proofs.Agreement
import FlatScope.Proofs.Room

/-!
# Leftovers of earlier runs

A tree is edited, resolved and numbered again and again, with one storage and the same pools
(`History`). What was attached to nodes that are gone is never in the way of those that are there
(`History.within`), so resolving and numbering from the top of an intact tree does as well as from
nothing (`traverse_leftovers`), but for one thing: a node that gets no slot keeps the one that it
has.
-/

namespace FlatScope

/-! ## Versions only grow -/

namespace Arena

variable {e : Entity} {α : Type} {a b : Arena e α}

/-- The indices of `a` are in use in `b`, with the same versions or later ones. -/
def Grows (a b : Arena e α) : Prop :=
  ∀ (i : Nat) (cell : Cell α), a.cells[i]? = some cell →
    ∃ cell' : Cell α, b.cells[i]? = some cell' ∧ cell.version ≤ cell'.version

theorem grows_refl (a : Arena e α) : Grows a a := fun _ cell hcell => ⟨cell, hcell, Nat.le_refl _⟩

/-- Writing to one cell keeps the others. -/
theorem grows_set {i : Nat} {old new : Cell α} (hold : a.cells[i]? = some old)
    (hb : b.cells = a.cells.setIfInBounds i new) (hle : old.version ≤ new.version) :
    Grows a b := by
  have hlt : i < a.cells.size := (Array.getElem?_eq_some_iff.mp hold).1
  intro j cell hcell
  rw [hb]
  by_cases heq : j = i
  · subst heq
    obtain rfl := Option.some.inj (hold.symm.trans hcell)
    exact ⟨new, Array.getElem?_setIfInBounds_self_of_lt hlt, hle⟩
  · exact ⟨cell, (Array.getElem?_setIfInBounds_ne (Ne.symm heq)).trans hcell, Nat.le_refl _⟩

theorem grows_insert (a : Arena e α) (value : Key e → α) : Grows a (a.insert value).2 := by
  rcases a.insert_cases value with ⟨-, -, -, hcells⟩ | ⟨i, version, -, hc, -, hcells⟩
  · intro i cell hcell
    have hlt : i < a.cells.size := (Array.getElem?_eq_some_iff.mp hcell).1
    refine ⟨cell, ?_, Nat.le_refl _⟩
    rw [hcells, Array.getElem?_push_lt hlt, ← hcell, Array.getElem?_eq_getElem hlt]
  · exact grows_set hc hcells (Nat.le_add_right _ 2)

theorem grows_modify (a : Arena e α) (key : Key e) (f : α → α) : Grows a (a.modify key f) := by
  unfold modify
  split
  · exact grows_refl a
  · next value h =>
    obtain ⟨i, version, rfl, hc⟩ := get?_eq_some.mp h
    exact grows_set hc rfl (Nat.le_refl _)

theorem grows_remove (a : Arena e α) (key : Key e) : Grows a (a.remove key) := by
  unfold remove
  split
  · exact grows_refl a
  · next value h =>
    obtain ⟨i, version, rfl, hc⟩ := get?_eq_some.mp h
    exact grows_set hc rfl (Nat.le_refl _)

/-- The index of the key is in use, with its version or a later one: it was given out some time. -/
def Issued (a : Arena e α) (key : Key e) : Prop :=
  ∃ i version cell, key = .at (i + 1) version ∧ a.cells[i]? = some cell ∧ version ≤ cell.version

theorem Issued.mono {key : Key e} (h : a.Issued key) (hgrows : a.Grows b) : b.Issued key := by
  obtain ⟨i, version, cell, rfl, hc, hle⟩ := h
  obtain ⟨cell', hc', hle'⟩ := hgrows i cell hc
  exact ⟨i, version, cell', rfl, hc', Nat.le_trans hle hle'⟩

theorem issued_of_get? {key : Key e} {value : α} (h : a.get? key = some value) : a.Issued key := by
  obtain ⟨i, version, rfl, hc⟩ := get?_eq_some.mp h
  exact ⟨i, version, _, rfl, hc, Nat.le_refl _⟩

theorem Issued.index_ne_zero {key : Key e} (h : a.Issued key) : key.index ≠ 0 := by
  obtain ⟨i, version, cell, rfl, -, -⟩ := h
  exact Nat.succ_ne_zero i

end Arena

namespace SideTable

variable {e : Entity} {α β : Type} {t : SideTable e α} {a b : Arena e β} {key : Key e}

/-- What a side table holds was written for keys that the arena has given out. -/
def Within (t : SideTable e α) (a : Arena e β) : Prop :=
  ∀ i entry, t.place? (i + 1) = some entry → ∃ cell, a.cells[i]? = some cell ∧
    entry.version ≤ cell.version

theorem within_empty (a : Arena e β) : (empty : SideTable e α).Within a := by
  intro i entry hentry
  cases hentry

theorem Within.mono (h : t.Within a) (hgrows : a.Grows b) : t.Within b := by
  intro i entry hentry
  obtain ⟨cell, hcell, hle⟩ := h i entry hentry
  obtain ⟨cell', hcell', hle'⟩ := hgrows i cell hcell
  exact ⟨cell', hcell', Nat.le_trans hle hle'⟩

/-- Then no newer version is in the way of a key with a value. -/
theorem Within.not_outdates (h : t.Within a) {value : β} (hkey : a.get? key = some value) :
    ¬ t.Outdates key := by
  obtain ⟨i, version, rfl, hc⟩ := Arena.get?_eq_some.mp hkey
  rintro ⟨old, hold, hlt⟩
  obtain ⟨cell, hcell, hle⟩ := h i old hold
  obtain rfl := Option.some.inj (hc.symm.trans hcell)
  exact Nat.lt_irrefl _ (Nat.lt_of_lt_of_le hlt hle)

theorem Within.insert (h : t.Within a) (hkey : a.Issued key) (x : α) :
    (t.insert key x).Within a := by
  by_cases hout : t.Outdates key
  · rw [insert_of_outdates hout]
    exact h
  · have hplace := t.place?_insert hkey.index_ne_zero hout x
    obtain ⟨i, version, cell, rfl, hc, hle⟩ := hkey
    intro j entry hentry
    by_cases heq : j = i
    · subst heq
      obtain rfl := Option.some.inj (hplace.symm.trans hentry)
      exact ⟨cell, hc, hle⟩
    · rw [t.place?_insert_of_ne x (fun h => heq (Nat.succ.inj h))] at hentry
      exact h j entry hentry

end SideTable

/-! ## Visits that keep an invariant -/

namespace Walk

variable {σ ρ ε : Type} {I : σ → Prop} {v w : Walk σ ε}

/-- Whatever the result, the walk keeps the invariant. -/
def Keeps (I : σ → Prop) (w : Walk σ ε) : Prop := ∀ s, I s → I (w s).2

theorem keeps_fail (I : σ → Prop) (d : ε) : Keeps I (fail d) := fun _ hs => hs

theorem Keeps.andThen (hv : Keeps I v) (hw : Keeps I w) : Keeps I (v.andThen w) := by
  intro s hs
  have ht := hv s hs
  cases hvs : v s with
  | mk r t =>
    rw [hvs] at ht
    cases r with
    | error d =>
      rw [andThen_of_error hvs]
      exact ht
    | ok _ =>
      rw [andThen_of_ok hvs]
      exact hw t ht

theorem Keeps.enclosed {enter leave : σ → σ} (hw : Keeps I w) (henter : ∀ s, I s → I (enter s))
    (hleave : ∀ s, I s → I (leave s)) : Keeps I (w.enclosed enter leave) :=
  fun s hs => hleave _ (hw _ (henter s hs))

theorem Keeps.bracket {part : σ → ρ} {restore : ρ → σ → σ} {enter : σ → σ} (hw : Keeps I w)
    (henter : ∀ s, I s → I (enter s)) (hrestore : ∀ s t, I s → I t → I (restore (part s) t)) :
    Keeps I (Walk.bracket part restore enter w) :=
  fun s hs => hrestore s _ hs (hw _ (henter s hs))

end Walk

namespace Visitor

variable {σ ε : Type} {v : Visitor σ ε} {I : σ → Prop} {P : Node → Prop}

/-- A visit keeps what every step keeps, whatever there is to visit. -/
theorem keeps_visitTree (hmissing : ∀ id, (v.around id none (v.missing id)).Keeps I)
    (hnode : ∀ n below, P n → below.Keeps I →
      (v.around n.id (some n) (v.node n below)).Keeps I)
    (o : Outline) (ho : ∀ n ∈ o.nodes, P n) : (v.visitTree o).Keeps I :=
  visitTree_induct (fun _ hs => hs) (fun _ _ => Walk.Keeps.andThen) hmissing o
    fun n hn below => hnode n below (ho n hn)

end Visitor

/-! ## Runs -/

/-- What is attached belongs to nodes that the tree has or had; the node visited is there. -/
structure Current (ast : Ast) (facts : Annotations) (current : Option Node) : Prop where
  within : ∀ f, (facts.table f).Within ast.nodes
  live : ∀ n, current = some n → ast.get? n.id = some n

section

variable {ast : Ast} {facts : Annotations} {current : Option Node} {n : Node}

theorem Current.insert (h : Current ast facts current) (hn : ast.get? n.id = some n) (f : Fact)
    (value : f.Value) : Current ast (facts.insert f n.id value) current := by
  refine ⟨fun g => ?_, h.live⟩
  unfold Annotations.insert
  by_cases heq : g = f
  · subst heq
    rw [Annotations.table_mapTable]
    exact (h.within g).insert (Arena.issued_of_get? hn) value
  · rw [Annotations.table_mapTable_of_ne _ _ heq]
    exact h.within g

theorem Current.enter (h : Current ast facts current) (hn : ast.get? n.id = some n) :
    Current ast facts (some n) := by
  refine ⟨h.within, fun m hm => ?_⟩
  obtain rfl := Option.some.inj hm
  exact hn

end

namespace Resolve

variable {ast : Ast} {n : Node}

def State.Sound (ast : Ast) (s : State) : Prop := Current ast s.facts s.current

theorem sound_openScope (kind : PoolKind) {s : State} (hs : s.Sound ast) :
    (openScope kind s).Sound ast := by
  simp only [openScope]
  split
  · next n hn => exact Current.insert hs (hs.live n hn) .pool _
  · exact hs

theorem keeps_inScope (kind : PoolKind) {below : Walk State Diagnostic}
    (hbelow : below.Keeps (State.Sound ast)) : (inScope kind below).Keeps (State.Sound ast) :=
  hbelow.enclosed (fun _ => sound_openScope kind) fun _ hs => hs

theorem keeps_within (hn : ast.get? n.id = some n) {below : Walk State Diagnostic}
    (hbelow : below.Keeps (State.Sound ast)) : (within n below).Keeps (State.Sound ast) :=
  hbelow.bracket (fun _ hs => Current.enter hs hn) fun _ _ hs ht => ⟨ht.within, hs.live⟩

theorem keeps_node (source : Nat) (n : Node) {below : Walk State Diagnostic}
    (hbelow : below.Keeps (State.Sound ast)) :
    ((visitor source).node n below).Keeps (State.Sound ast) := by
  simp only [visitor]
  split
  · exact keeps_inScope .global hbelow
  · exact keeps_inScope .function hbelow
  · exact Walk.keeps_fail _ _
  · exact hbelow

/-- Resolving attaches pools to nodes that are there, whatever it is run on. -/
theorem keeps_traverse (ast : Ast) (root : NodeId) :
    (traverse ast root).Keeps (State.Sound ast) := by
  rw [traverse, Visitor.visit_eq]
  refine Visitor.keeps_visitTree (P := fun n => ast.get? n.id = some n) (fun id s hs => hs)
    (fun n below hn hbelow => ?_) _ fun n hn => Ast.get?_of_mem_outlineWithin hn
  have hnode := keeps_within hn (keeps_node ast.source n hbelow)
  intro s hs
  by_cases hopens : n.kind.opensScope = true
  · rw [around_of_scope n.id hopens]
    exact hnode s hs
  · have hinner : n.kind.opensScope = false := Bool.not_eq_true _ ▸ hopens
    cases hstack : s.stack with
    | nil =>
      rw [around_of_outside (NodeKind.opensScope_eq_false.mp hinner) hstack]
      exact hs
    | cons pool stack =>
      rw [around_of_inner n.id hinner hstack]
      exact hnode _ (Current.insert hs hn .pool pool)

end Resolve

namespace Slots

variable {ast : Ast} {n : Node}

def State.Sound (ast : Ast) (s : State) : Prop := Current ast s.facts s.current

theorem sound_attach (hn : ast.get? n.id = some n) (f : Fact) (value : f.Value) {s : State}
    (hs : s.Sound ast) : (attach f n.id value s).Sound ast := Current.insert hs hn f value

/-- What happens at the node being visited happens at a node that is there. -/
theorem keeps_withCurrent {loc : Loc} {next : Node → PoolId → Walk State Diagnostic}
    (hnext : ∀ n pool, ast.get? n.id = some n → (next n pool).Keeps (State.Sound ast)) :
    (withCurrent loc next).Keeps (State.Sound ast) := by
  intro s hs
  unfold withCurrent
  split
  · next n pool stack hn hstack => exact hnext n pool (hs.live n hn) s hs
  · exact hs

theorem keeps_reserveIn {pool : PoolId} {name : String} {loc : Loc}
    {next : Nat → Walk State Diagnostic} (hnext : ∀ slot, (next slot).Keeps (State.Sound ast)) :
    (reserveIn pool name loc next).Keeps (State.Sound ast) := by
  intro s hs
  unfold reserveIn
  split
  · exact hs
  · dsimp only
    split
    · exact hs
    · exact hnext _ _ hs

theorem keeps_declare (name : String) (loc : Loc) :
    (declare name loc).Keeps (State.Sound ast) :=
  keeps_withCurrent fun _ _ hn => keeps_reserveIn fun slot _ hs => sound_attach hn .slot slot hs

theorem keeps_read (name : String) (loc : Loc) :
    (readUnlessType name loc).Keeps (State.Sound ast) := by
  intro s hs
  unfold readUnlessType
  split
  · exact hs
  · refine keeps_withCurrent (fun n pool hn t ht => ?_) s hs
    cases hslot : (t.pools.get? pool).bind (·.lookup name) with
    | none =>
      simp only [Walk.modify, hslot]
      exact ht
    | some slot =>
      simp only [Walk.modify, hslot]
      exact sound_attach hn .slot slot ht

theorem keeps_function (loc : Loc) {below : Walk State Diagnostic}
    (hbelow : below.Keeps (State.Sound ast)) : (function loc below).Keeps (State.Sound ast) := by
  refine keeps_withCurrent fun n pool hn => keeps_reserveIn fun _ => hbelow.andThen fun s hs => ?_
  split
  · exact hs
  · exact sound_attach hn .frame _ hs

theorem keeps_within (hn : ast.get? n.id = some n) (pool : PoolId) {below : Walk State Diagnostic}
    (hbelow : below.Keeps (State.Sound ast)) : (within n pool below).Keeps (State.Sound ast) :=
  Walk.Keeps.enclosed
    (hbelow.bracket (fun _ hs => Current.enter hs hn) fun _ _ hs ht => ⟨ht.within, hs.live⟩)
    (fun _ hs => hs) fun _ hs => hs

theorem keeps_node (source : Nat) (n : Node) {below : Walk State Diagnostic}
    (hbelow : below.Keeps (State.Sound ast)) :
    ((visitor source).node n below).Keeps (State.Sound ast) := by
  rw [node_eq]
  split
  · exact keeps_function _ hbelow
  · exact (keeps_declare _ _).andThen hbelow
  · exact (keeps_read _ _).andThen hbelow
  · exact hbelow.bracket (fun _ hs => hs) fun _ _ _ ht => ht
  · exact Walk.keeps_fail _ _
  · exact hbelow

/-- Numbering attaches slots and frames to nodes that are there, whatever it is run on. -/
theorem keeps_traverse (ast : Ast) (root : NodeId) :
    (traverse ast root).Keeps (State.Sound ast) := by
  rw [traverse, Visitor.visit_eq]
  refine Visitor.keeps_visitTree (P := fun n => ast.get? n.id = some n) (fun id s hs => hs)
    (fun n below hn hbelow => ?_) _ fun n hn => Ast.get?_of_mem_outlineWithin hn
  have hnode := fun pool => keeps_within hn pool (keeps_node ast.source n hbelow)
  intro s hs
  cases hpool : s.facts.fetch .pool n.id with
  | none =>
    simp only [visitor, hpool]
    exact hs
  | some pool =>
    simp only [visitor, hpool]
    exact hnode pool s hs

end Slots

/-! ## Edits and runs -/

/-- What a tree, its storage and its pools become by edits and by runs from any node. -/
inductive History : Ast → Annotations → Pools → Prop where
  | start (source : Nat) : History (.empty source) .empty .empty
  | add {ast : Ast} {facts : Annotations} {pools : Pools} (kind : NodeKind) (loc : Loc) :
      History ast facts pools → History (ast.add kind loc).2 facts pools
  | replace {ast : Ast} {facts : Annotations} {pools : Pools} (id : NodeId) (kind : NodeKind) :
      History ast facts pools → History (ast.replace id kind) facts pools
  | remove {ast : Ast} {facts : Annotations} {pools : Pools} (id : NodeId) :
      History ast facts pools → History (ast.remove id) facts pools
  | resolve {ast : Ast} {facts : Annotations} {pools : Pools} {result : Except Diagnostic Unit}
      {r : Resolve.State} (root : NodeId) : History ast facts pools →
      Resolve.traverse ast root { facts, pools } = (result, r) → History ast r.facts r.pools
  | number {ast : Ast} {facts : Annotations} {pools : Pools} {result : Except Diagnostic Unit}
      {s : Slots.State} (root : NodeId) : History ast facts pools →
      Slots.traverse ast root { facts, pools } = (result, s) → History ast s.facts s.pools

theorem History.resolved {ast : Ast} {facts : Annotations} {pools : Pools} (root : NodeId)
    (h : History ast facts pools) :
    History ast (Resolve.traverse ast root { facts, pools }).2.facts
      (Resolve.traverse ast root { facts, pools }).2.pools := h.resolve root rfl

theorem History.numbered {ast : Ast} {facts : Annotations} {pools : Pools} (root : NodeId)
    (h : History ast facts pools) :
    History ast (Slots.traverse ast root { facts, pools }).2.facts
      (Slots.traverse ast root { facts, pools }).2.pools := h.number root rfl

theorem History.within {ast : Ast} {facts : Annotations} {pools : Pools}
    (h : History ast facts pools) (f : Fact) : (facts.table f).Within ast.nodes := by
  induction h generalizing f with
  | start source => cases f <;> exact SideTable.within_empty _
  | add kind loc _ ih => exact (ih f).mono (Arena.grows_insert _ _)
  | replace id kind _ ih => exact (ih f).mono (Arena.grows_modify _ _ _)
  | remove id _ ih => exact (ih f).mono (Arena.grows_remove _ _)
  | @resolve ast facts pools result r root _ hrun ih =>
    have hkept := Resolve.keeps_traverse ast root { facts, pools } ⟨ih, by simp⟩
    rw [hrun] at hkept
    exact hkept.within f
  | @number ast facts pools result s root _ hrun ih =>
    have hkept := Slots.keeps_traverse ast root { facts, pools } ⟨ih, by simp⟩
    rw [hrun] at hkept
    exact hkept.within f

namespace Slots

variable {ast : Ast} {root : NodeId} {facts : Annotations} {pools : Pools} {n : Node}

/--
What a run leaves at the nodes of a tree, compared with one from nothing, where `facts` is what the
storage held before.
-/
structure Recovers (ast : Ast) (root : NodeId) (facts : Annotations) (s₀ s : State) : Prop where
  /-- a node gets the same slot; without one it keeps what it had -/
  slot_eq : ∀ p ∈ ast.places root, ∀ n, p.node? = some n → s.facts.fetch .slot n.id =
    (s₀.facts.fetch .slot n.id).or (facts.fetch .slot n.id)
  /-- a function gets the same frame -/
  frame_eq : ∀ p ∈ ast.places root, ∀ n, p.node? = some n → n.kind.naming = .frame →
    s.facts.fetch .frame n.id = s₀.facts.fetch .frame n.id
  /-- the same nodes share a pool -/
  shared_iff : ∀ p ∈ ast.places root, ∀ q ∈ ast.places root, ∀ n m, p.node? = some n →
    q.node? = some m → (s.facts.fetch .pool n.id = s.facts.fetch .pool m.id ↔
      s₀.facts.fetch .pool n.id = s₀.facts.fetch .pool m.id)

/-- Where numbering a tree that was resolved from nothing succeeds every function has a frame. -/
theorem exists_frame (h : ast.Intact root) (hn : ast.get? root = some n)
    (hopens : n.kind.opensScope = true) {r : Resolve.State} {s : State}
    (hresolve : Resolve.traverse ast root { facts := .empty, pools := .empty } = (.ok (), r))
    (hrun : traverse ast root { facts := r.facts, pools := r.pools } = (.ok (), s)) {f : Place}
    (hf : f ∈ ast.places root) {m : Node} (hm : f.node? = some m)
    (hnaming : m.kind.naming = .frame) : ∃ size, s.facts.fetch .frame m.id = some size := by
  obtain ⟨r', hresolve', hroom, hfull⟩ := exists_resolved h hn hopens
  obtain ⟨-, rfl⟩ := Prod.mk.inj (hresolve.symm.trans hresolve')
  by_cases hfits : ast.HasRoom root
  · obtain ⟨s', hrun', hframes⟩ := hroom hfits
    obtain ⟨-, rfl⟩ := Prod.mk.inj (hrun.symm.trans hrun')
    exact ⟨_, hframes f hf m hm hnaming⟩
  · obtain ⟨d, s', hrun'⟩ := hfull hfits
    cases hrun.symm.trans hrun'

/--
After any edits and runs resolving an intact unit succeeds, and numbering it ends as it does from
nothing. If it succeeds it gives the nodes the same slots, frames and company, but a slot that is
not overwritten stays.
-/
theorem traverse_leftovers {classes : List NodeId} (hist : History ast facts pools)
    (h : ast.Intact root) (hn : ast.get? root = some n) (hk : n.kind = .compUnit classes) :
    ∃ r₀ r result s₀ s,
      Resolve.traverse ast root { facts := .empty, pools := .empty } = (.ok (), r₀) ∧
      Resolve.traverse ast root { facts, pools } = (.ok (), r) ∧
      traverse ast root { facts := r₀.facts, pools := r₀.pools } = (result, s₀) ∧
      traverse ast root { facts := r.facts, pools := r.pools } = (result, s) ∧
      (result = .ok () → Recovers ast root facts s₀ s) := by
  have hopens : n.kind.opensScope = true := by rw [hk]; rfl
  have hnew := fun f p hp n hn => (hist.within f).not_outdates
    (get?_of_place h (p := p) (n := n) hp hn)
  obtain ⟨rec₀, hresolve₀, -, hv₀, hhoused₀⟩ := exists_housed h hn hopens .empty .empty
    fun p hp n hn => SideTable.not_outdates_empty n.id
  obtain ⟨rec, hresolve, -, hv, hhoused⟩ := exists_housed h hn hopens facts pools (hnew .pool)
  obtain ⟨result, m₀, m, slots, frames, hrun₀, hrun, hslots, hm₀, hm, hframes, hf₀, hf⟩ :=
    traverse_alike hhoused₀ hhoused h (.of_visited h hv₀ hv)
  refine ⟨_, _, result, _, _, hresolve₀, hresolve, hrun₀, hrun, fun hok =>
    ⟨fun p hp k hk => ?_, fun p hp k hk hnaming => ?_, fun p hp q hq k k' hk hk' =>
      hhoused₀.shared_iff hhoused hp hq hk hk'⟩⟩
  · show m.slots.fetch k.id = (m₀.slots.fetch k.id).or (facts.slots.fetch k.id)
    rw [hm, hm₀]
    exact hslots.fetch_eq_or (get?_of_place h hp hk) (hnew .slot p hp k hk)
  · subst hok
    obtain ⟨size, hsize⟩ := exists_frame h hn hopens hresolve₀ hrun₀ hp hk hnaming
    have hor : m.frames.fetch k.id = (m₀.frames.fetch k.id).or (facts.frames.fetch k.id) := by
      rw [hf, hf₀]
      exact hframes.fetch_eq_or (get?_of_place h hp hk) (hnew .frame p hp k hk)
    have hsize : m₀.frames.fetch k.id = some size := hsize
    show m.frames.fetch k.id = m₀.frames.fetch k.id
    rw [hor, hsize, Option.some_or]

/-- A declaration is renamed between two runs, with a read of its old name behind it. -/
theorem exists_renamed : ∃ (ast : Ast) (facts : Annotations) (pools : Pools) (root : NodeId)
    (n : Node) (classes : List NodeId) (p : Place) (x : Node) (r₀ r : Resolve.State)
    (s₀ s : State), History ast facts pools ∧ ast.Intact root ∧ ast.get? root = some n ∧
      n.kind = .compUnit classes ∧ p ∈ ast.places root ∧ p.node? = some x ∧
      Resolve.traverse ast root { facts := .empty, pools := .empty } = (.ok (), r₀) ∧
      Resolve.traverse ast root { facts, pools } = (.ok (), r) ∧
      traverse ast root { facts := r₀.facts, pools := r₀.pools } = (.ok (), s₀) ∧
      traverse ast root { facts := r.facts, pools := r.pools } = (.ok (), s) ∧
      s₀.facts.fetch .slot x.id = none ∧ s.facts.fetch .slot x.id = some 0 := by
  let root : NodeId := .at 4 1
  let before := ((((Ast.empty 0).add (.type .int) ⟨0, 0, 3⟩).2.add
    (.declaration (.at 1 1) "x") ⟨0, 0, 5⟩).2.add (.identifier "x" none) ⟨0, 7, 8⟩).2.add
    (.compUnit [.at 2 1, .at 3 1]) ⟨0, 0, 9⟩ |>.2
  let r₁ := (Resolve.traverse before root { facts := .empty, pools := .empty }).2
  let s₁ := (traverse before root { facts := r₁.facts, pools := r₁.pools }).2
  let ast := before.replace (.at 2 1) (.declaration (.at 1 1) "y")
  let r₀ := (Resolve.traverse ast root { facts := .empty, pools := .empty }).2
  let r := (Resolve.traverse ast root { facts := s₁.facts, pools := s₁.pools }).2
  let x : Node := ⟨.at 3 1, .identifier "x" none, ⟨0, 7, 8⟩⟩
  let unit : Node := ⟨root, .compUnit [.at 2 1, .at 3 1], ⟨0, 0, 9⟩⟩
  let ty : Node := ⟨.at 1 1, .type .int, ⟨0, 0, 3⟩⟩
  let y : Node := ⟨.at 2 1, .declaration ty.id "y", ⟨0, 0, 5⟩⟩
  have hist : History ast s₁.facts s₁.pools := by
    have hbefore : History before .empty .empty :=
      .add _ _ (.add _ _ (.add _ _ (.add _ _ (.start 0))))
    exact .replace _ _ (.numbered root (.resolved root hbefore))
  have hshows : ast.Shows (.node unit [.node y [.node ty []], .node x []]) := by
    refine .node rfl rfl (List.forall_mem_cons.mpr ⟨.node rfl rfl ?_, ?_⟩)
    · exact List.forall_mem_singleton.mpr (.node rfl rfl (by simp))
    · exact List.forall_mem_singleton.mpr (.node rfl rfl (by simp))
  have hintact := hshows.intact (by decide +kernel) (by decide +kernel)
  have hresolve₀ : (Resolve.traverse ast root { facts := .empty, pools := .empty }).1 = .ok () := by
    decide +kernel
  have hresolve : (Resolve.traverse ast root { facts := s₁.facts, pools := s₁.pools }).1 =
      .ok () := by decide +kernel
  have hrun₀ : (traverse ast root { facts := r₀.facts, pools := r₀.pools }).1 = .ok () := by
    decide +kernel
  have hrun : (traverse ast root { facts := r.facts, pools := r.pools }).1 = .ok () := by
    decide +kernel
  have hslot₀ : ((traverse ast root { facts := r₀.facts, pools := r₀.pools }).2.facts.fetch .slot
    x.id : Option Nat) = none := by decide +kernel
  have hslot : ((traverse ast root { facts := r.facts, pools := r.pools }).2.facts.fetch .slot
    x.id : Option Nat) = some 0 := by decide +kernel
  have hp : ⟨[1], [⟨[], unit⟩], x.id, some x⟩ ∈ ast.places root := by decide +kernel
  exact ⟨ast, s₁.facts, s₁.pools, root, unit, [.at 2 1, .at 3 1], _, x, r₀, r, _, _, hist, hintact,
    rfl, rfl, hp, rfl, Walk.eq_of_fst hresolve₀, Walk.eq_of_fst hresolve, Walk.eq_of_fst hrun₀,
    Walk.eq_of_fst hrun, hslot₀, hslot⟩

/-- The run after the declaration was renamed ends as it does from nothing. -/
theorem traverse_leftovers_renamed : ∃ (ast : Ast) (facts : Annotations) (pools : Pools)
    (root : NodeId) (n : Node) (classes : List NodeId) (r₀ r : Resolve.State) (s₀ s : State),
      History ast facts pools ∧ ast.Intact root ∧ ast.get? root = some n ∧
      n.kind = .compUnit classes ∧
      Resolve.traverse ast root { facts := .empty, pools := .empty } = (.ok (), r₀) ∧
      Resolve.traverse ast root { facts, pools } = (.ok (), r) ∧
      traverse ast root { facts := r₀.facts, pools := r₀.pools } = (.ok (), s₀) ∧
      traverse ast root { facts := r.facts, pools := r.pools } = (.ok (), s) ∧
      Recovers ast root facts s₀ s := by
  obtain ⟨ast, facts, pools, root, n, classes, -, -, r₀, -, s₀, -, hist, hintact, hn, hk, -, -,
    hresolve₀, -, hrun₀, -⟩ := exists_renamed
  obtain ⟨r₀', r, result, s₀', s, hresolve₀', hresolve, hrun₀', hrun, hrecovers⟩ :=
    traverse_leftovers hist hintact hn hk
  obtain ⟨-, rfl⟩ := Prod.mk.inj (hresolve₀.symm.trans hresolve₀')
  obtain ⟨rfl, rfl⟩ := Prod.mk.inj (hrun₀.symm.trans hrun₀')
  exact ⟨ast, facts, pools, root, n, classes, r₀, r, s₀, s, hist, hintact, hn, hk, hresolve₀,
    hresolve, hrun₀, hrun, hrecovers rfl⟩

/-- But the read that has no slot from nothing has kept the one from before. -/
theorem not_forall_same_slot : ¬ ∀ (ast : Ast) (facts : Annotations) (pools : Pools)
    (root : NodeId) (n : Node) (classes : List NodeId), History ast facts pools →
      ast.Intact root → ast.get? root = some n → n.kind = .compUnit classes → ∀ r₀ r s₀ s,
        Resolve.traverse ast root { facts := .empty, pools := .empty } = (.ok (), r₀) →
        Resolve.traverse ast root { facts, pools } = (.ok (), r) →
        traverse ast root { facts := r₀.facts, pools := r₀.pools } = (.ok (), s₀) →
        traverse ast root { facts := r.facts, pools := r.pools } = (.ok (), s) →
        ∀ p ∈ ast.places root, ∀ m, p.node? = some m →
          s.facts.fetch .slot m.id = s₀.facts.fetch .slot m.id := by
  intro h
  obtain ⟨ast, facts, pools, root, n, classes, p, x, r₀, r, s₀, s, hist, hintact, hn, hk, hp, hx,
    hresolve₀, hresolve, hrun₀, hrun, hslot₀, hslot⟩ := exists_renamed
  have hsame := h ast facts pools root n classes hist hintact hn hk r₀ r s₀ s hresolve₀ hresolve
    hrun₀ hrun p hp x hx
  cases (hslot₀.symm.trans hsame.symm).trans hslot

end Slots

end FlatScope
