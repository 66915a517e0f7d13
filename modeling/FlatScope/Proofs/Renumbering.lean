import FlatScope.Proofs.Agreement
import FlatScope.Proofs.Overflow

/-!
# Numbering again

Numbering a tree again in the pools of the first run reserves nothing new: every name has its slot
by now. So the second run only completes the first (`traverse_completes`), with the slots of names
that were read ahead of their declarations, and a third run changes nothing.
-/

namespace FlatScope.Slots

variable {ast : Ast} {root : NodeId} {facts : Annotations} {pools : Pools} {pool : PoolId}
  {poolOf : List Nat → PoolId} {names names' : List String} {before after ps : List Place}
  {p : Place} {n : Node} {name : String} {scope : List Nat} {l l' : Ledger}

/-! ## Places whose names are all there -/

/-- The slot that a node gets when its pool holds these names. -/
def slotAmong? (names : List String) (p : Place) (n : Node) : Option Nat :=
  match n.kind.naming with
  | .declares name => some (names.idxOf name)
  | .reads name =>
    if p.above.any Spot.isType = true ∨ name ∉ names then none else some (names.idxOf name)
  | _ => none

/-- The slot that is attached when a place is come to. -/
def attachedSlot? (names : Place → List String) (p : Place) : Option (NodeId × Nat) :=
  p.node?.bind fun n => (slotAmong? (names p) p n).map (n.id, ·)

/-- The frame that is attached when a place is left. -/
def attachedFrame? (names : Place → List String) (p : Place) : Option (NodeId × Nat) :=
  p.node?.bind fun n =>
    if n.kind.naming = .frame then some (n.id, (names p).length) else none

/-- The pool of a place holds these names, and among them the one that is reserved there. -/
def Settled (facts : Annotations) (pools : Pools) (names : Place → List String) (p : Place) :
    Prop :=
  ∃ n pool a, p.node? = some n ∧ facts.fetch .pool n.id = some pool ∧ n.kind.naming ≠ .unread ∧
    pools.get? pool = some a ∧ a.Lists (names p) ∧ ∀ name ∈ p.reserved?, name ∈ names p

/-- Reserving a name that is there only finds its slot. -/
theorem reserve_settled {a : Pool} (ha : l.pools.get? pool = some a) (hlists : a.Lists names)
    (hname : name ∈ names) (loc : Loc) (next : Nat → Walk Ledger Diagnostic) :
    reserve pool name loc next l = next (names.idxOf name) l := by
  have hreserve : l.pools.reserve pool name = (some (names.idxOf name), l.pools) := by
    rw [Pools.reserve_eq_of_get? ha, hlists.reserve_of_mem hname]
    exact congrArg (some (names.idxOf name), ·) (Arena.modify_of_get? (f := fun _ => a) ha rfl)
  unfold reserve
  simp only [ha, hreserve]

theorem enter_settled (source : Nat) {names : Place → List String}
    (h : Settled facts l.pools names p) : enter source facts p l =
      (.ok (), { l with slots := l.slots.insertAll (attachedSlot? names p).toList }) := by
  obtain ⟨n, pool, a, hn, hpool, hread, ha, hlists, hmem⟩ := h
  have hreserved : p.reserved? = n.kind.naming.reserved? := by
    unfold Place.reserved?
    rw [hn, Option.bind_some]
  rw [hreserved] at hmem
  rw [enter_of_some hn hpool]
  unfold enterNode attachedSlot? slotAmong?
  rw [hn, Option.bind_some]
  cases hnaming : n.kind.naming with
  | frame =>
    rw [hnaming] at hmem
    exact reserve_settled ha hlists (hmem "this" rfl) _ _
  | declares name =>
    rw [hnaming] at hmem
    exact reserve_settled ha hlists (hmem name rfl) _ _
  | reads name =>
    show (Except.ok (), if _ then l else l.read pool name n.id) = _
    rw [Ledger.read_of_get? ha, hlists.lookup_eq]
    by_cases htype : p.above.any Spot.isType = true
    · simp only [htype, if_true, true_or]
      rfl
    · by_cases hm : name ∈ names p
      · simp only [htype, hm, if_true, not_true]
        rfl
      · simp only [htype, hm, if_false, not_false_eq_true, or_true, if_true]
        rfl
  | unread => exact absurd hnaming hread
  | type | other => rfl

theorem leave_settled {names : Place → List String} (h : Settled facts l.pools names p) :
    leave facts p l =
      (.ok (), { l with frames := l.frames.insertAll (attachedFrame? names p).toList }) := by
  obtain ⟨n, pool, a, hn, hpool, -, ha, hlists, -⟩ := h
  unfold attachedFrame?
  rw [hn, Option.bind_some]
  by_cases hnaming : n.kind.naming = .frame
  · rw [leave_of_some hn hpool, if_pos hnaming]
    simp only [leaveNode, hnaming, ha, hlists.size_eq]
    rfl
  · rw [leave_of_ne hn hnaming, if_neg hnaming]
    rfl

theorem filterMap_cons_eq_append (given? : Place → Option (NodeId × Nat)) (p : Place)
    (ps : List Place) : (p :: ps).filterMap given? = (given? p).toList ++ ps.filterMap given? := by
  rw [List.filterMap_cons]
  cases given? p <;> rfl

/-- A run over settled places changes no pool, and attaches to every place what it should have. -/
theorem through_settled (source : Nat) {names : Place → List String} {es : List Event}
    (h : ∀ p, .enter p ∈ es ∨ .leave p ∈ es → Settled facts l.pools names p) :
    Walk.through (enter source facts) (leave facts) es l =
      (.ok (),
        { slots := l.slots.insertAll ((es.filterMap Event.entered?).filterMap (attachedSlot? names))
          frames := l.frames.insertAll ((es.filterMap Event.left?).filterMap (attachedFrame? names))
          pools := l.pools }) := by
  induction es generalizing l with
  | nil => rfl
  | cons e es ih =>
    have hrest : ∀ p, .enter p ∈ es ∨ .leave p ∈ es → Settled facts l.pools names p := fun p hp =>
      h p (hp.imp (List.mem_cons_of_mem _) (List.mem_cons_of_mem _))
    cases e with
    | enter p =>
      have hentered : (Event.enter p :: es).filterMap Event.entered? =
          p :: es.filterMap Event.entered? := rfl
      have hrun := enter_settled source (h p (.inl List.mem_cons_self))
      rw [Walk.through, Walk.andThen_of_ok hrun, hentered, filterMap_cons_eq_append,
        SideTable.insertAll_append]
      exact ih (l := { l with slots := _ }) hrest
    | leave p =>
      have hleft : (Event.leave p :: es).filterMap Event.left? =
          p :: es.filterMap Event.left? := rfl
      have hrun := leave_settled (h p (.inr List.mem_cons_self))
      rw [Walk.through, Walk.andThen_of_ok hrun, hleft, filterMap_cons_eq_append,
        SideTable.insertAll_append]
      exact ih (l := { l with frames := _ }) hrest

/-! ## What the first run leaves -/

/-- Behind these places a name is read that only places ahead declare in its scope. -/
structure ReadsAhead (before : List Place) (p : Place) (after : List Place) (n : Node)
    (scope : List Nat) (name : String) : Prop where
  naming_eq : n.kind.naming = .reads name
  outside : p.above.any Spot.isType = false
  scope?_eq : p.scope? = some scope
  unknown : name ∉ before.filterMap (Place.declaredIn? scope)
  ahead : name ∈ after.filterMap (Place.declaredIn? scope)

/-- The names reserved in the scope of a place. -/
def scopeNames (ast : Ast) (root : NodeId) (p : Place) : List String :=
  p.scope?.elim [] (ast.reserved root)

theorem scopeNames_eq (hs : p.scope? = some scope) :
    scopeNames ast root p = ast.reserved root scope := by
  unfold scopeNames
  rw [hs]
  rfl

theorem namesOf_prefix_append (scope : List Nat) (ps qs : List Place) :
    namesOf scope ps <+: namesOf scope (ps ++ qs) := by
  unfold namesOf
  rw [List.filterMap_append, List.eraseDups_append]
  exact List.prefix_append _ _

theorem mem_namesOf : name ∈ namesOf scope ps ↔ ∃ p ∈ ps, p.reservedIn? scope = some name := by
  rw [namesOf, List.mem_eraseDups, List.mem_filterMap]

theorem mem_namesOf_of_declared (h : name ∈ ps.filterMap (Place.declaredIn? scope)) :
    name ∈ namesOf scope ps := by
  obtain ⟨p, hp, hname⟩ := List.mem_filterMap.mp h
  obtain ⟨hs, hname⟩ := Place.declaredIn?_eq_some.mp hname
  exact mem_namesOf.mpr ⟨p, hp, Place.reservedIn?_eq_some.mpr
    ⟨hs, Place.reserved?_of_declared? hname⟩⟩

/-- A node has a slot for the name that it declares, or reads where it is known. -/
theorem slotAmong?_eq_some {slot : Nat} : slotAmong? names p n = some slot ↔
    ∃ name, names.idxOf name = slot ∧ (n.kind.naming = .declares name ∨
      n.kind.naming = .reads name ∧ p.above.any Spot.isType = false ∧ name ∈ names) := by
  unfold slotAmong?
  cases n.kind.naming with
  | declares name => simp
  | reads name =>
    simp only [reduceCtorEq, false_or, Naming.reads.injEq]
    split
    · next hnone =>
      refine iff_of_false (fun h => by cases h) ?_
      rintro ⟨other, -, rfl, htype, hm⟩
      exact hnone.elim (fun h => absurd h (by rw [htype]; decide)) fun h => h hm
    · next hread =>
      obtain ⟨htype, hm⟩ := not_or.mp hread
      rw [Option.some.injEq]
      constructor
      · rintro rfl
        exact ⟨name, rfl, rfl, eq_false_of_ne_true htype, not_not.mp hm⟩
      · rintro ⟨other, rfl, rfl, -⟩
        rfl
  | frame | type | unread | other => simp

/-- A slot stays the same when more names come to a pool. -/
theorem slotAmong?_mono (hpre : names <+: names')
    (hmem : ∀ name, n.kind.naming = .declares name → name ∈ names) {slot : Nat}
    (h : slotAmong? names p n = some slot) : slotAmong? names' p n = some slot := by
  obtain ⟨rest, rfl⟩ := hpre
  obtain ⟨name, rfl, hnaming⟩ := slotAmong?_eq_some.mp h
  have hname : name ∈ names := hnaming.elim (hmem name) fun hread => hread.2.2
  refine slotAmong?_eq_some.mpr ⟨name, List.idxOf_append_of_mem hname, hnaming.imp_right ?_⟩
  exact fun ⟨hread, htype, _⟩ => ⟨hread, htype, List.mem_append_left rest hname⟩

/-- Behind a place only declarations bring names to its scope. -/
theorem declaredIn?_of_reservedIn? (hsplit : ast.places root = before ++ p :: after)
    (hs : p.scope? = some scope) {q : Place} (hq : q ∈ after)
    (hname : q.reservedIn? scope = some name) : q.declaredIn? scope = some name := by
  rw [List.append_cons] at hsplit
  obtain ⟨top, htop, -, rfl⟩ :=
    Ast.exists_scope_place hsplit (List.mem_append_right _ (List.mem_singleton_self p)) hs
  have hsorted := Ast.pairwise_of_prefix (hsplit.trans (List.append_nil _).symm)
  have hlt : top.path < q.path := (List.pairwise_append.mp hsorted).2.2 top htop q hq
  obtain ⟨hscope, hname⟩ := Place.reservedIn?_eq_some.mp hname
  exact Place.declaredIn?_eq_some.mpr ⟨hscope, reserved?_eq hscope hlt ▸ hname⟩

section

variable (hn : p.node? = some n) (hs : p.scope? = some scope)
include hn hs

theorem reservedIn?_eq : p.reservedIn? scope = n.kind.naming.reserved? := by
  unfold Place.reservedIn? Place.reserved?
  rw [if_pos hs, hn, Option.bind_some]

theorem mem_namesOf_concat (hnaming : n.kind.naming = .declares name) (before : List Place) :
    name ∈ namesOf scope (before ++ [p]) := by
  refine mem_namesOf.mpr ⟨p, List.mem_append_right _ (List.mem_singleton_self p), ?_⟩
  rw [reservedIn?_eq hn hs, hnaming]
  rfl

variable (hsplit : ast.places root = before ++ p :: after)
include hsplit

/-- The first run finds the names up to a place in its pool. -/
theorem slotAt?_eq (h : Pooled ast root facts pools poolOf) :
    slotAt? facts (fun _ => []) before p n (poolOf p.path) =
      slotAmong? (namesOf scope (before ++ [p])) p n := by
  have hp : p ∈ ast.places root := hsplit ▸ List.mem_append_right _ List.mem_cons_self
  obtain ⟨top, htop, hopens, htops, hpool⟩ := h.nearest p hp
  obtain rfl := Option.some.inj (hs.symm.trans htops)
  have hbefore : before ⊆ ast.places root := hsplit ▸ List.subset_append_left _ _
  have hbefore' : before ++ [p] ⊆ ast.places root :=
    List.append_subset.mpr ⟨hbefore, List.cons_subset.mpr ⟨hp, List.nil_subset _⟩⟩
  unfold slotAt? slotAmong?
  rw [hpool, namesIn_eq_namesOf h hbefore htop hopens, namesIn_eq_namesOf h hbefore' htop hopens]
  cases hnaming : n.kind.naming with
  | reads name =>
    have hnone : p.reservedIn? top.path = none := by
      rw [reservedIn?_eq hn hs, hnaming]
      rfl
    have hsame : namesOf top.path (before ++ [p]) = namesOf top.path before := by
      unfold namesOf
      rw [List.filterMap_append, List.filterMap_cons_none hnone, List.filterMap_nil,
        List.append_nil]
    simp only [hsame]
    by_cases htype : p.above.any Spot.isType = true
    · rw [if_pos htype, if_pos (.inl htype)]
    · by_cases hm : name ∈ namesOf top.path before
      · rw [if_neg htype, if_pos hm, if_neg (not_or.mpr ⟨htype, not_not.mpr hm⟩)]
      · rw [if_neg htype, if_neg hm, if_pos (.inr hm)]
  | declares name | frame | type | unread | other => rfl

/-- What has a slot among all names but not among those up to its place is read ahead. -/
theorem slotAmong?_cases {slot : Nat}
    (h : slotAmong? (ast.reserved root scope) p n = some slot) :
    slotAmong? (namesOf scope (before ++ [p])) p n = some slot ∨
      slotAmong? (namesOf scope (before ++ [p])) p n = none ∧
        ∃ name, ReadsAhead before p after n scope name := by
  have hall : ast.reserved root scope = namesOf scope ((before ++ [p]) ++ after) := by
    rw [← List.append_cons, ← hsplit]
    rfl
  have hpre : namesOf scope (before ++ [p]) <+: ast.reserved root scope :=
    hall ▸ namesOf_prefix_append scope (before ++ [p]) after
  have hmem : ∀ name, n.kind.naming = .declares name → name ∈ namesOf scope (before ++ [p]) :=
    fun name hnaming => mem_namesOf_concat hn hs hnaming before
  cases hearly : slotAmong? (namesOf scope (before ++ [p])) p n with
  | some slot' => exact .inl ((slotAmong?_mono hpre hmem hearly).symm.trans h)
  | none =>
    obtain ⟨name, -, hnaming⟩ := slotAmong?_eq_some.mp h
    have hunknown : name ∉ namesOf scope (before ++ [p]) := by
      intro hm
      have hslot := slotAmong?_eq_some.mpr
        ⟨name, rfl, hnaming.imp_right fun ⟨hread, htype, _⟩ => ⟨hread, htype, hm⟩⟩
      cases hearly.symm.trans hslot
    obtain ⟨hread, htype, hname⟩ := hnaming.resolve_left fun hdecl => hunknown (hmem name hdecl)
    refine .inr ⟨rfl, name, hread, htype, hs, fun hm => ?_, ?_⟩
    · exact hunknown ((namesOf_prefix_append scope before [p]).subset (mem_namesOf_of_declared hm))
    · rw [hall] at hname
      obtain ⟨q, hq, hqname⟩ := mem_namesOf.mp hname
      have hafter : q ∈ after := (List.mem_append.mp hq).resolve_left fun hq =>
        hunknown (mem_namesOf.mpr ⟨q, hq, hqname⟩)
      exact List.mem_filterMap.mpr
        ⟨q, hafter, declaredIn?_of_reservedIn? hsplit hs hafter hqname⟩

end

/-- The slots as the first run leaves them. -/
structure FirstSlots (ast : Ast) (root : NodeId) (t : SideTable .node Nat) : Prop where
  fetch_eq : ∀ before p after n scope, ast.places root = before ++ p :: after →
    p.node? = some n → p.scope? = some scope →
      t.fetch n.id = slotAmong? (namesOf scope (before ++ [p])) p n
  live : ∀ id slot, t.fetch id = some slot → ∃ n, ast.get? id = some n
  current : ∀ id n, ast.get? id = some n → ¬ t.Outdates id

section

variable (h : Pooled ast root facts l.pools poolOf) (hi : ast.Intact root)
  (hrun : Walk.through (enter ast.source facts) (leave facts) (ast.events root) l = (.ok (), l'))
include h hi hrun

theorem FirstSlots.of_through (hempty : l.slots = .empty) : FirstSlots ast root l'.slots := by
  have hhoused : Housed ast root facts poolOf := ⟨h.pool?_eq, h.nearest, h.distinct⟩
  have hsame : SameNames ast root poolOf poolOf l.pools l.pools := fun p hp => by
    obtain ⟨a, ha⟩ := Option.isSome_iff_exists.mp (h.registered p hp)
    exact ⟨a, a, ha, ha, .refl a⟩
  -- that a run agrees with itself says what it attaches
  obtain ⟨result, m, -, slots, -, hrun', -, honce, hslots, -⟩ :=
    events_alike hhoused hhoused hi l l hsame
  obtain ⟨-, rfl⟩ := Prod.mk.inj (hrun.symm.trans hrun')
  rw [hempty] at hslots
  refine ⟨fun before p after n scope hsplit hn hs => ?_, fun id slot hslot => ?_,
    fun id n hn => ?_⟩
  · have hnew : ¬ l.slots.Outdates n.id := hempty ▸ SideTable.not_outdates_empty n.id
    rw [fetch_slot h hi hrun hsplit hn hnew, hempty, SideTable.fetch_empty, Option.or_none,
      slotAt?_eq hn hs hsplit h]
  · rw [hslots] at hslot
    rcases SideTable.fetch_insertAll_cases hslot with ⟨entry, hentry, rfl⟩ | hnone
    · exact honce.live entry hentry
    · cases (SideTable.fetch_empty id).symm.trans hnone
  · rw [hslots, SideTable.outdates_insertAll _ (Arena.index_ne_zero hn) fun entry hentry heq => ?_]
    · exact SideTable.not_outdates_empty id
    · obtain ⟨m, hm⟩ := honce.live entry hentry
      exact Arena.eq_of_index_eq hm hn heq

/-- After a run every place is settled. -/
theorem settled_of_through (hp : p ∈ ast.places root) :
    Settled facts l'.pools (scopeNames ast root) p := by
  obtain ⟨htally, hsame⟩ := tally_of_prefix h hi (List.append_nil _).symm hrun
  obtain ⟨n, hn, -⟩ := hi.sound hp
  obtain ⟨hpool, hreg⟩ := h.pool_of_node hsame hp hn
  obtain ⟨a, ha⟩ := Option.isSome_iff_exists.mp hreg
  obtain ⟨top, htop, hopens, hs, heq⟩ := h.nearest p hp
  have hnames : namesIn facts (fun _ => []) (ast.places root) (poolOf p.path) =
      scopeNames ast root p := by
    rw [heq, namesIn_eq_reserved h htop hopens, scopeNames_eq hs]
  have hlists : a.Lists (namesIn facts (fun _ => []) (ast.places root) (poolOf p.path)) :=
    htally.lists _ a ha
  refine ⟨n, _, a, hn, hpool, naming_ne_unread hi hp hn, ha, hnames ▸ hlists, fun name hname => ?_⟩
  rw [scopeNames_eq hs]
  exact mem_namesOf.mpr ⟨p, hp, Place.reservedIn?_eq_some.mpr ⟨hs, hname⟩⟩

end

/-! ## What the second run adds -/

/-- The slots and the frames that a run over settled places attaches. -/
def slotEntries (ast : Ast) (root : NodeId) : List (NodeId × Nat) :=
  (ast.places root).filterMap (attachedSlot? (scopeNames ast root))

def frameEntries (ast : Ast) (root : NodeId) : List (NodeId × Nat) :=
  ((ast.events root).filterMap Event.left?).filterMap (attachedFrame? (scopeNames ast root))

theorem attachedSlot?_eq_some {names : Place → List String} {entry : NodeId × Nat} :
    attachedSlot? names p = some entry ↔
      ∃ n, p.node? = some n ∧ slotAmong? (names p) p n = some entry.2 ∧ n.id = entry.1 := by
  simp only [attachedSlot?, Option.bind_eq_some_iff, Option.map_eq_some_iff, Prod.ext_iff]
  constructor
  · rintro ⟨n, hn, slot, hslot, hid, rfl⟩
    exact ⟨n, hn, hslot, hid⟩
  · rintro ⟨n, hn, hslot, hid⟩
    exact ⟨n, hn, entry.2, hslot, hid, rfl⟩

theorem once_slotEntries (hi : ast.Intact root) : Once ast (slotEntries ast root) :=
  .filterMap hi (List.Subset.refl _) pairwise_entered fun _ _ hentry => by
    obtain ⟨n, hn, -, hid⟩ := attachedSlot?_eq_some.mp hentry
    exact ⟨n, hn, hid⟩

/-- What a second run makes of the annotations and the pools of a first. -/
structure Completed (ast : Ast) (root : NodeId) (s s' : State) : Prop where
  pools_eq : s'.pools = s.pools
  table_eq : ∀ f, f ≠ .slot → s'.facts.table f = s.facts.table f
  /-- a slot that is there stays, -/
  kept : ∀ id slot, s.facts.fetch .slot id = some slot → s'.facts.fetch .slot id = some slot
  /-- a name that was read ahead gets its slot, -/
  added : ∀ before p after n scope name, ast.places root = before ++ p :: after →
    p.node? = some n → ReadsAhead before p after n scope name →
      ∃ pool a slot, s.facts.fetch .pool n.id = some pool ∧ s.pools.get? pool = some a ∧
        a.lookup name = some slot ∧ (ast.reserved root scope)[slot]? = some name ∧
          s'.facts.fetch .slot n.id = some slot
  /-- which it had not before, unless it is reserved from the start, -/
  missed : ∀ before p after n scope name, ast.places root = before ++ p :: after →
    p.node? = some n → ReadsAhead before p after n scope name → name ≠ "this" →
      s.facts.fetch .slot n.id = none
  /-- and nothing else changes -/
  other : ∀ id, (∀ before p after n scope name, ast.places root = before ++ p :: after →
      p.node? = some n → ReadsAhead before p after n scope name → n.id ≠ id) →
    s'.facts.fetch .slot id = s.facts.fetch .slot id

section

variable {t : SideTable .node Nat} (h : FirstSlots ast root t) (hi : ast.Intact root)
  (hscoped : ∀ p ∈ ast.places root, ∃ scope, p.scope? = some scope)
include h hscoped

/-- What the second run attaches to a node is there already, or the node reads ahead. -/
theorem FirstSlots.entry_cases {entry : NodeId × Nat} (hentry : entry ∈ slotEntries ast root) :
    t.fetch entry.1 = some entry.2 ∨ t.fetch entry.1 = none ∧
      ∃ before p after n scope name, ast.places root = before ++ p :: after ∧
        p.node? = some n ∧ n.id = entry.1 ∧ ReadsAhead before p after n scope name := by
  obtain ⟨p, hp, hslot⟩ := List.mem_filterMap.mp hentry
  obtain ⟨n, hn, hslot, hid⟩ := attachedSlot?_eq_some.mp hslot
  obtain ⟨scope, hs⟩ := hscoped p hp
  obtain ⟨before, after, hsplit⟩ := List.append_of_mem hp
  rw [scopeNames_eq hs] at hslot
  rw [← hid, h.fetch_eq before p after n scope hsplit hn hs]
  rcases slotAmong?_cases hn hs hsplit hslot with hfirst | ⟨hnone, name, hahead⟩
  · exact .inl hfirst
  · exact .inr ⟨hnone, before, p, after, n, scope, name, hsplit, hn, rfl, hahead⟩

include hi

theorem FirstSlots.kept {id : NodeId} {slot : Nat} (hslot : t.fetch id = some slot) :
    (t.insertAll (slotEntries ast root)).fetch id = some slot := by
  obtain ⟨n, hn⟩ := h.live id slot hslot
  rw [(once_slotEntries hi).fetch_insertAll hn (h.current id n hn), hslot]
  cases hentry : (slotEntries ast root).lookup id with
  | none => rfl
  | some slot' =>
    obtain ⟨entries, entries', heq, -⟩ := List.lookup_eq_some_iff.mp hentry
    have hmem : (id, slot') ∈ slotEntries ast root :=
      heq ▸ List.mem_append_right entries List.mem_cons_self
    rcases h.entry_cases hscoped hmem with hsame | ⟨hnone, -⟩
    · rw [Option.some_or]
      exact hsame.symm.trans hslot
    · cases hslot.symm.trans hnone

theorem FirstSlots.other {id : NodeId} (hid : ∀ before p after n scope name,
    ast.places root = before ++ p :: after → p.node? = some n →
      ReadsAhead before p after n scope name → n.id ≠ id) :
    (t.insertAll (slotEntries ast root)).fetch id = t.fetch id := by
  ext slot
  refine ⟨fun hslot => ?_, h.kept hi hscoped⟩
  rcases SideTable.fetch_insertAll_cases hslot with ⟨entry, hentry, rfl⟩ | hold
  · rcases h.entry_cases hscoped hentry with
      hold | ⟨-, before, p, after, n, scope, name, hsplit, hn, heq, hahead⟩
    · rw [← hslot, h.kept hi hscoped hold, hold]
    · exact absurd heq (hid before p after n scope name hsplit hn hahead)
  · exact hold

end

section

variable (hahead : ReadsAhead before p after n scope name)
include hahead

theorem ReadsAhead.mem_reserved (hsplit : ast.places root = before ++ p :: after) :
    name ∈ ast.reserved root scope := by
  obtain ⟨q, hq, hname⟩ := mem_namesOf.mp (mem_namesOf_of_declared hahead.ahead)
  have hq : q ∈ ast.places root :=
    hsplit ▸ List.mem_append_right _ (List.mem_cons_of_mem _ hq)
  exact mem_namesOf.mpr ⟨q, hq, hname⟩

theorem ReadsAhead.mem_slotEntries (hsplit : ast.places root = before ++ p :: after)
    (hn : p.node? = some n) :
    (n.id, (ast.reserved root scope).idxOf name) ∈ slotEntries ast root := by
  refine List.mem_filterMap.mpr ⟨p, hsplit ▸ List.mem_append_right _ List.mem_cons_self, ?_⟩
  refine attachedSlot?_eq_some.mpr ⟨n, hn, ?_, rfl⟩
  rw [scopeNames_eq hahead.scope?_eq]
  exact slotAmong?_eq_some.mpr ⟨name, rfl, .inr ⟨hahead.naming_eq, hahead.outside,
    hahead.mem_reserved hsplit⟩⟩

theorem ReadsAhead.slotAmong?_eq_none (hn : p.node? = some n) (hthis : name ≠ "this") :
    slotAmong? (namesOf scope (before ++ [p])) p n = none := by
  refine Option.eq_none_iff_forall_ne_some.mpr fun slot hslot => ?_
  obtain ⟨other, -, hnaming⟩ := slotAmong?_eq_some.mp hslot
  rw [hahead.naming_eq] at hnaming
  rcases hnaming with hdecl | ⟨hread, -, hm⟩
  · cases hdecl
  · obtain rfl := Naming.reads.inj hread
    obtain ⟨q, hq, hname⟩ := mem_namesOf.mp hm
    rcases List.mem_append.mp hq with hq | hq
    · obtain ⟨hs, hname⟩ := Place.reservedIn?_eq_some.mp hname
      exact hahead.unknown (List.mem_filterMap.mpr ⟨q, hq, Place.declaredIn?_eq_some.mpr
        ⟨hs, Place.declared?_of_reserved? hname hthis⟩⟩)
    · obtain rfl := List.mem_singleton.mp hq
      rw [reservedIn?_eq hn hahead.scope?_eq, hahead.naming_eq] at hname
      cases hname

end

/-! ## Runs over settled places -/

theorem traverse_settled (hi : ast.Intact root)
    (h : ∀ p ∈ ast.places root, Settled facts pools (scopeNames ast root) p) :
    traverse ast root { facts, pools } = (.ok (), Ledger.state facts []
      { slots := facts.slots.insertAll (slotEntries ast root)
        frames := facts.frames.insertAll (frameEntries ast root)
        pools }) := by
  have hset : ∀ p, .enter p ∈ ast.events root ∨ .leave p ∈ ast.events root →
      Settled facts pools (scopeNames ast root) p := fun p hp => h p (mem_places_of_event hp)
  have hrun := through_settled ast.source (l := ⟨facts.slots, facts.frames, pools⟩) hset
  rw [traverse_eq hi.acyclic.unfolds_outline, Walk.onPart, hrun]
  rfl

/-- The frames are there after the first run. -/
theorem insertAll_frameEntries (h : Pooled ast root facts l.pools poolOf) (hi : ast.Intact root)
    (hrun : Walk.through (enter ast.source facts) (leave facts) (ast.events root) l = (.ok (), l'))
    (hempty : l.frames = .empty) : l'.frames.insertAll (frameEntries ast root) = l'.frames := by
  refine SideTable.insertAll_of_fetch fun entry hentry => ?_
  obtain ⟨f, hf, hentry⟩ := List.mem_filterMap.mp hentry
  have hf : f ∈ ast.places root := mem_places_of_event (.inr (mem_left.mp hf))
  unfold attachedFrame? at hentry
  obtain ⟨n, hn, hentry⟩ := Option.bind_eq_some_iff.mp hentry
  split at hentry
  · next hnaming =>
    obtain rfl := Option.some.inj hentry
    have hfun : IsFunction f := ⟨n, hn, hnaming⟩
    rw [scopeNames_eq hfun.scope?, reserved_eq_locals hf hfun]
    exact fetch_frame h hi hrun hf hn hnaming (hempty ▸ SideTable.not_outdates_empty n.id)
  · cases hentry

/-- Slots as the first run leaves them are completed by what settled places attach. -/
theorem Completed.of_firstSlots {s s' : State} (h : FirstSlots ast root s.facts.slots)
    (hi : ast.Intact root)
    (hscoped : ∀ p ∈ ast.places root, ∃ scope, p.scope? = some scope)
    (hsettled : ∀ p ∈ ast.places root, Settled s.facts s.pools (scopeNames ast root) p)
    (hpools : s'.pools = s.pools)
    (htable : ∀ f, f ≠ .slot → s'.facts.table f = s.facts.table f)
    (hslots : s'.facts.slots = s.facts.slots.insertAll (slotEntries ast root)) :
    Completed ast root s s' := by
  have hfetch : ∀ id, s'.facts.fetch .slot id =
      (s.facts.slots.insertAll (slotEntries ast root)).fetch id := fun id =>
    congrArg (SideTable.fetch · id) hslots
  refine ⟨hpools, htable, fun id slot hslot => ?_,
    fun before p after n scope name hsplit hn hahead => ?_,
    fun before p after n scope name hsplit hn hahead hthis => ?_, fun id hid => ?_⟩
  · rw [hfetch]
    exact h.kept hi hscoped hslot
  · have hp : p ∈ ast.places root := hsplit ▸ List.mem_append_right _ List.mem_cons_self
    have hget := get?_of_place hi hp hn
    obtain ⟨m, pool, a, hm, hpool, -, ha, hlists, -⟩ := hsettled p hp
    obtain rfl := Option.some.inj (hn.symm.trans hm)
    rw [scopeNames_eq hahead.scope?_eq] at hlists
    have hname := hahead.mem_reserved hsplit
    refine ⟨pool, a, _, hpool, ha, hlists.lookup_of_mem hname, List.getElem?_idxOf hname, ?_⟩
    rw [hfetch]
    exact SideTable.fetch_insertAll_of_mem _ (once_slotEntries hi).nodup
      (hahead.mem_slotEntries hsplit hn) (Arena.index_ne_zero hget) (h.current n.id n hget)
  · exact (h.fetch_eq before p after n scope hsplit hn hahead.scope?_eq).trans
      (hahead.slotAmong?_eq_none hn hthis)
  · rw [hfetch]
    exact h.other hi hscoped hid

/--
Numbering an intact unit again after a first run succeeds, and gives the names that were read ahead
their slots. Then numbering it changes nothing.
-/
theorem traverse_completes {classes : List NodeId} (h : ast.Intact root)
    (hn : ast.get? root = some n) (hk : n.kind = .compUnit classes) :
    ∃ r, Resolve.traverse ast root { facts := .empty, pools := .empty } = (.ok (), r) ∧
      ∀ s, traverse ast root { facts := r.facts, pools := r.pools } = (.ok (), s) →
        ∃ s', traverse ast root { facts := s.facts, pools := s.pools } = (.ok (), s') ∧
          Completed ast root s s' ∧
          traverse ast root { facts := s'.facts, pools := s'.pools } = (.ok (), s') := by
  have hopens : n.kind.opensScope = true := by rw [hk]; rfl
  obtain ⟨r, poolOf, hresolve, hpooled, hslots, hframes⟩ := exists_pooled h hn hopens
  have hpooled : Pooled ast root r.facts
      (⟨r.facts.slots, r.facts.frames, r.pools⟩ : Ledger).pools poolOf := hpooled
  refine ⟨r, hresolve, fun s hrun => ?_⟩
  obtain ⟨l, hthrough, rfl⟩ := exists_ledger h.acyclic.unfolds_outline hrun
  have hsettled := fun p hp => settled_of_through hpooled h hthrough (p := p) hp
  have hscoped : ∀ p ∈ ast.places root, ∃ scope, p.scope? = some scope := fun p hp => by
    obtain ⟨top, -, -, hs, -⟩ := hpooled.nearest p hp
    exact ⟨_, hs⟩
  have hframes' : l.frames.insertAll (frameEntries ast root) = l.frames :=
    insertAll_frameEntries hpooled h hthrough hframes
  -- the slots that are there have no part in a run
  have hagain : ∀ slots, traverse ast root
      { facts := { r.facts with slots, frames := l.frames }, pools := l.pools } =
        (.ok (), Ledger.state r.facts []
          ⟨slots.insertAll (slotEntries ast root), l.frames, l.pools⟩) := by
    intro slots
    have hset : ∀ p ∈ ast.places root, Settled { r.facts with slots, frames := l.frames } l.pools
        (scopeNames ast root) p := hsettled
    refine (traverse_settled h hset).trans ?_
    exact congrArg (fun frames => (Except.ok (), Ledger.state r.facts [] ⟨_, frames, l.pools⟩))
      hframes'
  refine ⟨_, hagain l.slots, .of_firstSlots (.of_through hpooled h hthrough hslots) h hscoped
    hsettled rfl (fun f hf => ?_) rfl, ?_⟩
  · cases f with
    | slot => exact absurd rfl hf
    | pool | frame | number | text => rfl
  · refine (hagain (l.slots.insertAll (slotEntries ast root))).trans ?_
    rw [SideTable.insertAll_insertAll _ (once_slotEntries h).nodup]

/-- A name that is read ahead of its declaration gets its slot in the second run. -/
theorem traverse_completes_ahead : ∃ (ast : Ast) (root : NodeId) (n x : Node)
    (classes : List NodeId) (r : Resolve.State) (s s' : State), ast.Intact root ∧
      ast.get? root = some n ∧ n.kind = .compUnit classes ∧
      Resolve.traverse ast root { facts := .empty, pools := .empty } = (.ok (), r) ∧
      traverse ast root { facts := r.facts, pools := r.pools } = (.ok (), s) ∧
      traverse ast root { facts := s.facts, pools := s.pools } = (.ok (), s') ∧
      Completed ast root s s' ∧
      traverse ast root { facts := s'.facts, pools := s'.pools } = (.ok (), s') ∧
      s.facts.fetch .slot x.id = none ∧ s'.facts.fetch .slot x.id = some 0 := by
  let root : NodeId := .at 4 1
  let ast := ((((Ast.empty 0).add (.identifier "x" none) ⟨0, 0, 1⟩).2.add (.type .int)
    ⟨0, 3, 6⟩).2.add (.declaration (.at 2 1) "x") ⟨0, 3, 8⟩).2.add
    (.compUnit [.at 1 1, .at 3 1]) ⟨0, 0, 9⟩ |>.2
  let x : Node := ⟨.at 1 1, .identifier "x" none, ⟨0, 0, 1⟩⟩
  let ty : Node := ⟨.at 2 1, .type .int, ⟨0, 3, 6⟩⟩
  let decl : Node := ⟨.at 3 1, .declaration ty.id "x", ⟨0, 3, 8⟩⟩
  let unit : Node := ⟨root, .compUnit [x.id, decl.id], ⟨0, 0, 9⟩⟩
  have hshows : ast.Shows (.node unit [.node x [], .node decl [.node ty []]]) := by
    refine .node rfl rfl (List.forall_mem_cons.mpr ⟨.node rfl rfl (by simp), ?_⟩)
    refine List.forall_mem_singleton.mpr (.node rfl rfl ?_)
    exact List.forall_mem_singleton.mpr (.node rfl rfl (by simp))
  have hintact := hshows.intact (by decide +kernel) (by decide +kernel)
  let r := (Resolve.traverse ast root { facts := .empty, pools := .empty }).2
  let s := (traverse ast root { facts := r.facts, pools := r.pools }).2
  have hrun : (traverse ast root { facts := r.facts, pools := r.pools }).1 = .ok () := by
    decide +kernel
  have hmissed : (s.facts.fetch .slot x.id : Option Nat) = none := by decide +kernel
  have hadded : ((traverse ast root { facts := s.facts, pools := s.pools }).2.facts.fetch .slot
    x.id : Option Nat) = some 0 := by decide +kernel
  obtain ⟨r', hresolve, hagain⟩ := traverse_completes hintact rfl rfl
  obtain rfl : r = r' := congrArg Prod.snd hresolve
  obtain ⟨s', hrun', hcompleted, hrun''⟩ := hagain s (Walk.eq_of_fst hrun)
  rw [show traverse ast root { facts := s.facts, pools := s.pools } = _ from hrun'] at hadded
  exact ⟨ast, root, unit, x, _, r, s, s', hintact, rfl, rfl, hresolve, Walk.eq_of_fst hrun, hrun',
    hcompleted, hrun'', hmissed, hadded⟩

end FlatScope.Slots
