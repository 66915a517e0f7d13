import FlatScope.Proofs.Ancestry
import FlatScope.Proofs.Coherence
import FlatScope.Proofs.Openings

/-!
# What the passes leave alone

A pass writes to the nodes that it comes to, and to nothing else (`Ast.Acyclic.footprints`).
Resolving attaches pools to the nodes below the top and opens new ones; those there were before stay
as they are. Numbering attaches slots and frames to some of these nodes, opens no pool, and adds
names to the pools of these nodes. Both hold wherever a run stops. Only one thing can be lost, the
fact about a removed node when a newer node has its index (`Resolve.exists_lost`).
-/

namespace FlatScope

namespace SideTable

variable {e : Entity} {α : Type} {S : Key e → Prop} {t u v : SideTable e α} {key : Key e}

/--
From `t` to `u` only the keys in `S` were written to. What another key reads is the same, or it is
lost because a newer key in `S` has its index.
-/
def Confined (S : Key e → Prop) (t u : SideTable e α) : Prop :=
  ∀ key, ¬ S key → u.fetch key = t.fetch key ∨
    u.fetch key = none ∧ ∃ newer, S newer ∧ newer.index = key.index ∧ key.version < newer.version

theorem Confined.refl (S : Key e → Prop) (t : SideTable e α) : Confined S t t :=
  fun _ _ => .inl rfl

theorem Confined.trans (h : Confined S t u) (h' : Confined S u v) : Confined S t v := by
  intro key hkey
  rcases h' key hkey with heq | hlost
  · rw [heq]
    exact h key hkey
  · exact .inr hlost

/-- Writing to a key is lost on the keys with another index, and on the newer ones. -/
theorem confined_insert (hkey : S key) (t : SideTable e α) (x : α) :
    Confined S t (t.insert key x) := by
  intro other hother
  by_cases hout : t.Outdates key
  · rw [insert_of_outdates hout]
    exact .inl rfl
  by_cases hindex : other.index = key.index
  · cases hafter : (t.insert key x).fetch other with
    | some y =>
      rcases fetch_insert_cases hafter with rfl | hbefore
      · exact absurd hkey hother
      · exact .inl hbefore.symm
    | none =>
      cases hbefore : t.fetch other with
      | none => exact .inl rfl
      | some z =>
        refine .inr ⟨rfl, key, hkey, hindex.symm, ?_⟩
        have hplace := fetch_eq_some.mp hbefore
        have hzero : key.index ≠ 0 := hindex ▸ index_ne_zero_of_fetch hbefore
        have hle : other.version ≤ key.version :=
          Nat.le_of_not_lt fun hlt => hout ⟨_, hindex ▸ hplace, hlt⟩
        refine Nat.lt_of_le_of_ne hle fun heq => ?_
        have hnew := t.place?_insert hzero hout x
        rw [← hindex, ← heq] at hnew
        cases hafter.symm.trans (fetch_eq_some.mpr hnew)
  · exact .inl (t.fetch_insert_of_ne hindex x)

/-- A key in use is newer than the others with its index, so nothing is lost there. -/
theorem Confined.fetch_eq {β : Type} {a : Arena e β} (h : Confined S t u)
    (hS : ∀ key, S key → ∃ value, a.get? key = some value) {value : β}
    (hkey : a.get? key = some value) (hnot : ¬ S key) : u.fetch key = t.fetch key := by
  rcases h key hnot with heq | ⟨-, newer, hnewer, hindex, -⟩
  · exact heq
  · obtain ⟨other, hother⟩ := hS newer hnewer
    exact absurd (Arena.eq_of_index_eq hother hkey hindex ▸ hnewer) hnot

end SideTable

/-! ## Pools that names are added to -/

/-- Only these names were added; the others are where they were. -/
structure Pool.Extends (names : String → Prop) (p p' : Pool) : Prop where
  id_eq : p'.id = p.id
  kind_eq : p'.kind = p.kind
  size_le : p.size ≤ p'.size
  kept : ∀ name slot, p.lookup name = some slot → p'.lookup name = some slot
  added : ∀ name slot, p'.lookup name = some slot → p.lookup name = some slot ∨ names name

namespace Pool

variable {names : String → Prop} {p q r : Pool} {name : String} {slot : Nat}

theorem Extends.refl (names : String → Prop) (p : Pool) : Extends names p p :=
  ⟨rfl, rfl, Nat.le_refl _, fun _ _ h => h, fun _ _ h => .inl h⟩

theorem Extends.trans (h : Extends names p q) (h' : Extends names q r) : Extends names p r where
  id_eq := h'.id_eq.trans h.id_eq
  kind_eq := h'.kind_eq.trans h.kind_eq
  size_le := Nat.le_trans h.size_le h'.size_le
  kept name slot hp := h'.kept name slot (h.kept name slot hp)
  added name slot hr := (h'.added name slot hr).elim (h.added name slot) .inr

theorem extends_reserve (hname : names name) (h : p.reserve name = (some slot, q)) :
    Extends names p q := by
  obtain ⟨-, hsize, hkept⟩ := reserve_grows h
  cases reserves_of_eq h with
  | known => exact .refl names p
  | added _ _ hid hkind _ hslots =>
    refine ⟨hid, hkind, hsize, hkept, fun other s hother => ?_⟩
    rw [lookup_of_insert hslots] at hother
    split at hother
    · next heq => exact .inr (heq ▸ hname)
    · exact .inl hother

end Pool

namespace Pools

variable {names : PoolId → String → Prop} {pools pools' pools'' : Pools} {id : PoolId}

/-- No pool was opened, and only these names were added to each. -/
structure Extends (names : PoolId → String → Prop) (pools pools' : Pools) : Prop where
  sameKeys : Slots.SameKeys pools pools'
  pool : ∀ id p p', pools.get? id = some p → pools'.get? id = some p' → p.Extends (names id) p'
  same : ∀ id, (∀ name, ¬ names id name) → pools'.get? id = pools.get? id

theorem Extends.refl (names : PoolId → String → Prop) (pools : Pools) :
    Extends names pools pools where
  sameKeys := .refl pools
  pool id p p' hp hp' := by
    obtain rfl := Option.some.inj (hp.symm.trans hp')
    exact .refl _ p
  same _ _ := rfl

theorem Extends.trans (h : Extends names pools pools') (h' : Extends names pools' pools'') :
    Extends names pools pools'' where
  sameKeys := h.sameKeys.trans h'.sameKeys
  pool id p p'' hp hp'' := by
    have hsome := h.sameKeys id
    rw [hp] at hsome
    obtain ⟨p', hp'⟩ := Option.isSome_iff_exists.mp hsome
    exact (h.pool id p p' hp hp').trans (h'.pool id p' p'' hp' hp'')
  same id hid := (h'.same id hid).trans (h.same id hid)

theorem extends_reserve {name : String} {slot : Nat} (hname : names id name)
    (h : pools.reserve id name = (some slot, pools')) : Extends names pools pools' := by
  obtain ⟨p, q, hp, hq, rfl⟩ := reserve_eq_some h
  refine ⟨.modify pools id _, fun other a b ha hb => ?_, fun other hother => ?_⟩
  · rw [Arena.get?_modify] at hb
    split at hb
    · next heq =>
      subst heq
      obtain rfl := Option.some.inj (hp.symm.trans ha)
      rw [hp] at hb
      obtain rfl := Option.some.inj hb
      exact Pool.extends_reserve hname hq
    · obtain rfl := Option.some.inj (ha.symm.trans hb)
      exact .refl _ a
  · rw [Arena.get?_modify, if_neg]
    rintro rfl
    exact hother name hname

end Pools

namespace Ast

variable {ast : Ast} {root : NodeId} {p : Place} {n : Node}

/-- The id of a live node below the top that is of this sort. -/
def Below (ast : Ast) (root : NodeId) (sort : NodeKind → Prop) (id : NodeId) : Prop :=
  ∃ n ∈ ast.descendants root, sort n.kind ∧ n.id = id

theorem below_of_mem {sort : NodeKind → Prop} (h : ast.Acyclic root) (hp : p ∈ ast.places root)
    (hn : p.node? = some n) (hsort : sort n.kind) : ast.Below root sort n.id :=
  ⟨n, h.mem_descendants.mpr ⟨p, hp, hn⟩, hsort, rfl⟩

theorem get?_of_below {sort : NodeKind → Prop} {id : NodeId} (h : ast.Below root sort id) :
    ∃ n, ast.get? id = some n := by
  obtain ⟨n, hn, -, rfl⟩ := h
  exact ⟨n, get?_of_mem_descendants hn⟩

end Ast

/-! ## Resolving -/

namespace Resolve

variable {ast : Ast} {root : NodeId} {facts : Annotations} {pools : Pools} {p : Place}

/-- What resolving from `root` on leaves of the facts and the pools there were. -/
structure Footprint (ast : Ast) (root : NodeId) (facts : Annotations) (pools : Pools)
    (s : State) : Prop where
  /-- facts of the other sorts stay, -/
  table_eq : ∀ f, f ≠ .pool → s.facts.table f = facts.table f
  /-- so do the pools of nodes that are not below the top, -/
  fetch_eq : ∀ id n, ast.get? id = some n → n ∉ ast.descendants root →
    s.facts.fetch .pool id = facts.fetch .pool id
  /-- those of other ids stay or are lost to a newer node below the top that has the index, -/
  confined : (facts.table .pool).Confined (ast.Below root fun _ => True) (s.facts.table .pool)
  /-- and what was in a pool is all that is in it -/
  kept : ∀ id p, pools.get? id = some p → s.pools.get? id = some p

/-- What meeting places does to a record. -/
structure Record.Touches (ast : Ast) (root : NodeId) (r r' : Record) : Prop where
  confined : r.table.Confined (ast.Below root fun _ => True) r'.table
  kept : ∀ id p, r.pools.get? id = some p → r'.pools.get? id = some p

theorem Record.Touches.refl (r : Record) : Touches ast root r r := ⟨.refl _ _, fun _ _ h => h⟩

theorem Record.Touches.trans {r r' r'' : Record} (h : Touches ast root r r')
    (h' : Touches ast root r' r'') : Touches ast root r r'' :=
  ⟨h.confined.trans h'.confined, fun id p hp => h'.kept id p (h.kept id p hp)⟩

theorem touches_meet (h : ast.Acyclic root) (hp : p ∈ ast.places root) (r : Record) :
    Record.Touches ast root r (r.meet p) := by
  unfold Record.meet
  split
  · next n scope hn hs =>
    exact ⟨SideTable.confined_insert (Ast.below_of_mem h hp hn trivial) _ _,
      fun id q hq => Attaches.get?_enter hq _ _⟩
  · exact .refl r

theorem footprint (h : ast.Acyclic root) (facts : Annotations) (pools : Pools) :
    Footprint ast root facts pools (traverse ast root { facts, pools }).2 := by
  let start : Record := ⟨facts.pools, pools, fun _ => .null⟩
  have hrun : Record.Touches ast root start
      (Walk.through (act ast.source) (fun _ => Walk.done) (ast.events root) start).2 :=
    Walk.through_relates (R := Record.Touches ast root) .refl .trans
      (fun p hp r => touches_meet h (Outline.mem_places.mpr hp) r) (fun _ _ r => .refl r) start
  rw [Walk.through_done] at hrun
  rw [traverse_eq h.unfolds_outline]
  refine ⟨fun f hf => ?_, fun id n hn hout => ?_, hrun.confined, hrun.kept⟩
  · cases f <;> first | rfl | exact absurd rfl hf
  · refine hrun.confined.fetch_eq (fun _ => Ast.get?_of_below) hn ?_
    rintro ⟨m, hm, -, rfl⟩
    exact hout (Option.some.inj ((Ast.get?_of_mem_descendants hm).symm.trans hn) ▸ hm)

end Resolve

/-! ## Numbering -/

/-- Where a slot may be attached: a parameter, a declaration, or a name that is not called. -/
def NodeKind.hasSlot : NodeKind → Prop
  | param .. | declaration .. | identifier _ none => True
  | _ => False

def NodeKind.isFunction : NodeKind → Prop
  | function .. => True
  | _ => False

/-- The name that a node may add to its pool. -/
def NodeKind.adds? : NodeKind → Option String
  | function .. => some "this"
  | param _ name | declaration _ name => some name
  | _ => none

theorem NodeKind.reserved?_naming (kind : NodeKind) : kind.naming.reserved? = kind.adds? := by
  cases kind with
  | identifier name args => cases args <;> rfl
  | _ => rfl

theorem NodeKind.hasSlot_of_naming {kind : NodeKind} {name : String}
    (h : kind.naming = .declares name ∨ kind.naming = .reads name) : kind.hasSlot := by
  cases kind with
  | param | declaration => trivial
  | identifier name args =>
    cases args with
    | none => trivial
    | some args => rcases h with h | h <;> cases h
  | _ => rcases h with h | h <;> cases h

theorem NodeKind.isFunction_of_naming {kind : NodeKind} (h : kind.naming = .frame) :
    kind.isFunction := by
  cases kind with
  | function => trivial
  | identifier name args => cases args <;> cases h
  | _ => cases h

namespace Slots

variable {ast : Ast} {root : NodeId} {facts : Annotations} {pools : Pools} {p : Place} {n : Node}
  {pool : PoolId} {l l' l'' : Ledger}

/-- A live node below the top in this pool has this name to add. -/
def Adds (ast : Ast) (root : NodeId) (facts : Annotations) (pool : PoolId) (name : String) : Prop :=
  ∃ n ∈ ast.descendants root, facts.fetch .pool n.id = some pool ∧ n.kind.adds? = some name

/-- What numbering from `root` on leaves of the facts and the pools there were. -/
structure Footprint (ast : Ast) (root : NodeId) (facts : Annotations) (pools : Pools)
    (s : State) : Prop where
  /-- facts of the other sorts stay, -/
  table_eq : ∀ f, f ≠ .slot → f ≠ .frame → s.facts.table f = facts.table f
  /-- so do the slots of nodes other than such below the top, -/
  slot_eq : ∀ id n, ast.get? id = some n → ¬ (n ∈ ast.descendants root ∧ n.kind.hasSlot) →
    s.facts.fetch .slot id = facts.fetch .slot id
  /-- and the frames of nodes other than functions there; -/
  frame_eq : ∀ id n, ast.get? id = some n → ¬ (n ∈ ast.descendants root ∧ n.kind.isFunction) →
    s.facts.fetch .frame id = facts.fetch .frame id
  /-- those of other ids stay or are lost to a newer such node that has the index. -/
  slots_confined :
    (facts.table .slot).Confined (ast.Below root NodeKind.hasSlot) (s.facts.table .slot)
  frames_confined :
    (facts.table .frame).Confined (ast.Below root NodeKind.isFunction) (s.facts.table .frame)
  /-- No pool is opened, and to those there were only the names of their nodes are added -/
  pools_extend : pools.Extends (Adds ast root facts) s.pools

/-- What steps do to a ledger. -/
structure Ledger.Touches (ast : Ast) (root : NodeId) (facts : Annotations) (l l' : Ledger) :
    Prop where
  slots : l.slots.Confined (ast.Below root NodeKind.hasSlot) l'.slots
  frames : l.frames.Confined (ast.Below root NodeKind.isFunction) l'.frames
  pools : l.pools.Extends (Adds ast root facts) l'.pools

theorem Ledger.Touches.refl (l : Ledger) : Touches ast root facts l l :=
  ⟨.refl _ _, .refl _ _, .refl _ _⟩

theorem Ledger.Touches.trans (h : Touches ast root facts l l')
    (h' : Touches ast root facts l' l'') : Touches ast root facts l l'' :=
  ⟨h.slots.trans h'.slots, h.frames.trans h'.frames, h.pools.trans h'.pools⟩

theorem touches_withSlot (hid : ast.Below root NodeKind.hasSlot n.id) (slot : Nat) (l : Ledger) :
    Ledger.Touches ast root facts l (l.withSlot n.id slot) :=
  ⟨SideTable.confined_insert hid _ _, .refl _ _, .refl _ _⟩

theorem touches_reserve {name : String} (hname : Adds ast root facts pool name)
    {next : Nat → Walk Ledger Diagnostic}
    (hnext : ∀ slot l, Ledger.Touches ast root facts l (next slot l).2) (loc : Loc) (l : Ledger) :
    Ledger.Touches ast root facts l (reserve pool name loc next l).2 := by
  unfold reserve
  split
  · exact .refl l
  · split
    · exact .refl l
    · next slot pools hreserve =>
      have hpools : Ledger.Touches ast root facts l { l with pools } :=
        ⟨.refl _ _, .refl _ _, Pools.extends_reserve hname hreserve⟩
      exact hpools.trans (hnext slot { l with pools })

theorem touches_enterNode (h : ast.Acyclic root) (hp : p ∈ ast.places root)
    (hn : p.node? = some n) (hpool : facts.fetch .pool n.id = some pool) (inType : Bool)
    (l : Ledger) : Ledger.Touches ast root facts l (enterNode pool inType n l).2 := by
  have hmem : n ∈ ast.descendants root := h.mem_descendants.mpr ⟨p, hp, hn⟩
  have hadds : ∀ name, n.kind.naming.reserved? = some name → Adds ast root facts pool name :=
    fun name hname => ⟨n, hmem, hpool, n.kind.reserved?_naming ▸ hname⟩
  have hslot : (∃ name, n.kind.naming = .declares name ∨ n.kind.naming = .reads name) →
      ast.Below root NodeKind.hasSlot n.id := by
    rintro ⟨name, hname⟩
    exact Ast.below_of_mem h hp hn (NodeKind.hasSlot_of_naming hname)
  unfold enterNode
  cases hnaming : n.kind.naming with
  | frame =>
    exact touches_reserve (hadds "this" (by rw [hnaming]; rfl)) (fun _ l => .refl l) n.loc l
  | declares name =>
    exact touches_reserve (hadds name (by rw [hnaming]; rfl))
      (fun slot l => touches_withSlot (hslot ⟨name, .inl hnaming⟩) slot l) n.loc l
  | reads name =>
    show Ledger.Touches ast root facts l (if inType then l else l.read pool name n.id)
    split
    · exact .refl l
    · unfold Ledger.read
      split
      · exact touches_withSlot (hslot ⟨name, .inr hnaming⟩) _ l
      · exact .refl l
  | type | unread | other => exact .refl l

theorem touches_enter (source : Nat) (h : ast.Acyclic root) (hp : p ∈ ast.places root)
    (l : Ledger) :
    Ledger.Touches ast root facts l (enter source facts p l).2 := by
  cases hn : p.node? with
  | none =>
    unfold enter
    rw [hn]
    exact .refl l
  | some n =>
    cases hpool : facts.fetch .pool n.id with
    | none =>
      rw [enter_of_none hn hpool]
      exact .refl l
    | some pool =>
      rw [enter_of_some hn hpool]
      exact touches_enterNode h hp hn hpool _ l

theorem touches_leave (h : ast.Acyclic root) (hp : p ∈ ast.places root) (l : Ledger) :
    Ledger.Touches ast root facts l (leave facts p l).2 := by
  rcases leave_cases facts p with hdone | ⟨n, pool, hn, hleave⟩
  · rw [hdone]
    exact .refl l
  · rw [hleave]
    unfold leaveNode
    split
    · next hnaming =>
      have hid := Ast.below_of_mem h hp hn (NodeKind.isFunction_of_naming hnaming)
      split
      · exact .refl l
      · exact ⟨.refl _ _, SideTable.confined_insert hid _ _, .refl _ _⟩
    · exact .refl l

theorem footprint (h : ast.Acyclic root) (facts : Annotations) (pools : Pools) :
    Footprint ast root facts pools (traverse ast root { facts, pools }).2 := by
  let start : Ledger := ⟨facts.slots, facts.frames, pools⟩
  have hrun : Ledger.Touches ast root facts start
      (Walk.through (enter ast.source facts) (leave facts) (ast.events root) start).2 :=
    Walk.through_relates (R := Ledger.Touches ast root facts) .refl .trans
      (fun p hp l => touches_enter ast.source h (Outline.mem_places.mpr hp) l)
      (fun p hp l => touches_leave h (Outline.leave_mem_events.mp hp).1 l) start
  have hbelow : ∀ {sort : NodeKind → Prop} {id : NodeId} {n : Node}, ast.get? id = some n →
      ¬ (n ∈ ast.descendants root ∧ sort n.kind) → ¬ ast.Below root sort id := by
    rintro sort id n hn hout ⟨m, hm, hsort, rfl⟩
    obtain rfl := Option.some.inj ((Ast.get?_of_mem_descendants hm).symm.trans hn)
    exact hout ⟨hm, hsort⟩
  rw [traverse_eq h.unfolds_outline]
  refine ⟨fun f hslot hframe => ?_, fun id n hn hout => ?_, fun id n hn hout => ?_, hrun.slots,
    hrun.frames, hrun.pools⟩
  · cases f <;> first | rfl | exact absurd rfl hslot | exact absurd rfl hframe
  · exact hrun.slots.fetch_eq (fun _ => Ast.get?_of_below) hn (hbelow hn hout)
  · exact hrun.frames.fetch_eq (fun _ => Ast.get?_of_below) hn (hbelow hn hout)

end Slots

/-! ## Both passes -/

/-- From whatever they start, and wherever they stop, the passes write only to what they visit. -/
theorem Ast.Acyclic.footprints {ast : Ast} {root : NodeId} (h : ast.Acyclic root)
    (facts : Annotations) (pools : Pools) :
    Resolve.Footprint ast root facts pools (Resolve.traverse ast root { facts, pools }).2 ∧
      Slots.Footprint ast root facts pools (Slots.traverse ast root { facts, pools }).2 :=
  ⟨Resolve.footprint h facts pools, Slots.footprint h facts pools⟩

/-- A unit is resolved and removed; then a type gets its index, in a unit with a declaration. -/
theorem Resolve.exists_lost : ∃ (ast : Ast) (root : NodeId) (facts : Annotations) (pools : Pools)
    (r : State), ast.Acyclic root ∧ (∀ n ∈ ast.descendants root, n.id ≠ .at 1 1) ∧
      traverse ast root { facts, pools } = (.ok (), r) ∧
      facts.fetch .pool (.at 1 1) = some (.at 1 1 : PoolId) ∧
      r.facts.fetch .pool (.at 1 1) = none := by
  let old : Ast := ((Ast.empty 0).add (.compUnit []) ⟨0, 0, 0⟩).2
  let s := (traverse old (.at 1 1) { facts := .empty, pools := .empty }).2
  let ast : Ast := ((((old.remove (.at 1 1)).add (.type .int) ⟨0, 0, 3⟩).2.add
    (.declaration (.at 1 3) "x") ⟨0, 0, 5⟩).2.add (.compUnit [.at 2 1]) ⟨0, 0, 5⟩).2
  have hgrown : Grown ast _ := .add (.compUnit [.at 2 1]) ⟨0, 0, 5⟩
    (.add (.declaration (.at 1 3) "x") ⟨0, 0, 5⟩
      (.add (.type .int) ⟨0, 0, 3⟩ (.remove (.at 1 1)
        (.add (.compUnit []) ⟨0, 0, 0⟩ (.start 0) (by decide))) (by decide)) (by decide))
    (by decide)
  have hok : (traverse ast (.at 3 1) { facts := s.facts, pools := s.pools }).1 = .ok () := by
    decide +kernel
  exact ⟨ast, .at 3 1, s.facts, s.pools, _, hgrown.acyclic _, by decide +kernel,
    Walk.eq_of_fst hok, by decide +kernel, by decide +kernel⟩

/-- There the new unit is resolved and then numbered. -/
theorem Ast.Acyclic.footprints_reissued : ∃ (ast : Ast) (root : NodeId) (facts : Annotations)
    (pools : Pools) (r : Resolve.State), ast.Acyclic root ∧
      facts.fetch .pool (.at 1 1) = some (.at 1 1 : PoolId) ∧
      Resolve.traverse ast root { facts, pools } = (.ok (), r) ∧
      Resolve.Footprint ast root facts pools r ∧
      Slots.Footprint ast root r.facts r.pools
        (Slots.traverse ast root { facts := r.facts, pools := r.pools }).2 := by
  obtain ⟨ast, root, facts, pools, r, hacyclic, -, hrun, hbefore, -⟩ := Resolve.exists_lost
  have hresolved := (footprints hacyclic facts pools).1
  rw [hrun] at hresolved
  exact ⟨ast, root, facts, pools, r, hacyclic, hbefore, hrun, hresolved,
    (footprints hacyclic r.facts r.pools).2⟩

/-- But what was attached to the removed unit is gone, though no node below the top has its id. -/
theorem Resolve.not_forall_fetch_eq : ¬ ∀ (ast : Ast) (root : NodeId) (facts : Annotations)
    (pools : Pools), ast.Acyclic root → ∀ id, (∀ n ∈ ast.descendants root, n.id ≠ id) →
      (traverse ast root { facts, pools }).2.facts.fetch .pool id = facts.fetch .pool id := by
  intro h
  obtain ⟨ast, root, facts, pools, r, hacyclic, hout, hrun, hbefore, hafter⟩ := exists_lost
  have hsame := h ast root facts pools hacyclic _ hout
  rw [hrun, hbefore, hafter] at hsame
  cases hsame

end FlatScope
