import FlatScope.Proofs.Overflow

/-!
# Where numbering stops

With room for all names, numbering fails exactly if a place is not clear: nothing is there, or it
has no pool, or it stands where reading failed. The first such place decides
(`stops_at_first_defect`). `Stopped` says what it leaves: the pools hold the names of the places
before, those places have their slots, and a function has its frame if all of it comes before.
Pools may have names from earlier, and dangling references and unread nodes may be anywhere, so the
tree is only asked not to lead to a node twice (`Ast.Untangled`).
-/

namespace FlatScope

namespace Ast

variable {ast : Ast} {root : NodeId} {p q : Place} {n m : Node}

/-- A node is reached along one path. -/
def Untangled (ast : Ast) (root : NodeId) : Prop :=
  ∀ path path' id n, ast.get? id = some n → ast.at? root path = some id →
    ast.at? root path' = some id → path = path'

/-- Where a path leads on there is a node. -/
theorem exists_get?_of_at?_cons {id x : NodeId} {i : Nat} {rest : List Nat}
    (h : ast.at? id (i :: rest) = some x) : ∃ n, ast.get? id = some n := by
  obtain ⟨child, hc, -⟩ := at?_cons_eq_some.mp h
  obtain ⟨n, hn, -⟩ := get?_eq_some_of_mem_children (List.mem_of_getElem? hc)
  exact ⟨n, hn⟩

theorem Untangled.acyclic (h : ast.Untangled root) : ast.Acyclic root := by
  intro path id i rest hp hback
  obtain ⟨n, hn⟩ := exists_get?_of_at?_cons hback
  have hlong : ast.at? root (path ++ i :: rest) = some id := by
    rw [at?_append, hp, Option.bind_some, hback]
  have hlength := congrArg List.length (h _ _ id n hn hp hlong)
  rw [List.length_append, List.length_cons] at hlength
  omega

/-- Other places have nodes with other indices. -/
theorem Untangled.index_ne (h : ast.Untangled root) (hp : p ∈ ast.places root)
    (hq : q ∈ ast.places root) (hne : p ≠ q) (hn : p.node? = some n) (hm : q.node? = some m) :
    n.id.index ≠ m.id.index := by
  have ho := h.acyclic.unfolds_outline
  obtain ⟨hid, hget⟩ := ho.get?_of_node? hp hn
  obtain ⟨hid', hget'⟩ := ho.get?_of_node? hq hm
  intro heq
  have hids : q.id = p.id := hid'.symm.trans ((Arena.eq_of_index_eq hget hget' heq).symm.trans hid)
  have hpath := h.acyclic.mem_places_iff.mp ⟨p, hp, rfl, rfl⟩
  have hpath' := h.acyclic.mem_places_iff.mp ⟨q, hq, rfl, hids⟩
  exact hne (eq_of_path_eq hp hq (h _ _ _ n (hid ▸ hget) hpath hpath'))

/-- Without circles it is enough that no node is met twice. -/
theorem Acyclic.untangled (h : ast.Acyclic root)
    (nodup : (((ast.places root).filter (·.node?.isSome)).map (·.id)).Nodup) :
    ast.Untangled root := by
  intro path path' id n hn hp hp'
  obtain ⟨p, hmem, rfl, rfl⟩ := h.mem_places_iff.mpr hp
  obtain ⟨q, hmem', rfl, hid⟩ := h.mem_places_iff.mpr hp'
  have hp : p.node? = some n := (h.unfolds_outline.node?_eq hmem).trans hn
  have hq : q.node? = some n := (h.unfolds_outline.node?_eq hmem').trans (hid ▸ hn)
  have heq : p = q := List.inj_on_of_nodup_map nodup
    (List.mem_filter.mpr ⟨hmem, by rw [hp]; rfl⟩) (List.mem_filter.mpr ⟨hmem', by rw [hq]; rfl⟩)
    hid.symm
  rw [heq]

end Ast

namespace Slots

variable {ast : Ast} {root : NodeId} {facts : Annotations} {pools : Pools}
  {start : PoolId → List String} {before after : List Place} {p q f : Place} {n : Node}

theorem naming_eq_unread {kind : NodeKind} : kind.naming = .unread ↔ kind = .error := by
  constructor
  · intro h
    unfold NodeKind.naming at h
    split at h <;> first | rfl | cases h
  · rintro rfl
    rfl

/-- A node is there, it has a pool, and it was read. -/
def Clear (facts : Annotations) (p : Place) : Prop :=
  ∃ n pool, p.node? = some n ∧ facts.fetch .pool n.id = some pool ∧ n.kind ≠ .error

/-- The complaint about a place that is not clear. -/
inductive Blames (source : Nat) (facts : Annotations) (p : Place) : Diagnostic → Prop where
  /-- a dangling reference is blamed on the node that holds it, if there is one; -/
  | missing : p.node? = none → Blames source facts p {
      defect := .missingNode p.id
      loc := (p.above.head?.map (·.node.loc)).getD ⟨source, 0, 0⟩ }
  /-- a node without a pool and one that was not read are blamed on themselves. -/
  | unresolved {n : Node} : p.node? = some n → facts.fetch .pool n.id = none →
      Blames source facts p { defect := .unresolved n.kind.name, loc := n.loc }
  | unparsed {n : Node} {pool : PoolId} : p.node? = some n → facts.fetch .pool n.id = some pool →
      n.kind = .error → Blames source facts p { defect := .unparsedNode, loc := n.loc }

/--
What a run leaves that stopped at a place behind these; `start` are the names that the pools had
before.
-/
structure Stopped (ast : Ast) (root : NodeId) (facts : Annotations) (pools : Pools)
    (start : PoolId → List String) (before : List Place) (s : State) : Prop where
  keys : SameKeys pools s.pools
  /-- the names of the places before have been reserved in their order, and no others; -/
  lists : ∀ pool q, s.pools.get? pool = some q → q.Lists (namesIn facts start before pool)
  /-- what declares a name before the place has the slot of that name, -/
  slot : ∀ q ∈ before, ∀ n name, q.node? = some n → n.kind.naming = .declares name →
    ∃ pool r slot, facts.fetch .pool n.id = some pool ∧ s.pools.get? pool = some r ∧
      r.lookup name = some slot ∧ s.facts.fetch .slot n.id = some slot
  /-- and nothing else has one from there on; -/
  noSlot : ∀ q ∈ ast.places root, q ∉ before → ∀ n, q.node? = some n →
    s.facts.fetch .slot n.id = none
  /-- a function has a frame if it ends before the place. -/
  frame : ∀ f ∈ ast.places root, ∀ n, f.node? = some n → n.kind.naming = .frame →
    ((s.facts.fetch .frame n.id).isSome ↔
      ∀ q ∈ ast.places root, f.path <+: q.path → q ∈ before)

/--
Nothing is numbered yet, the pools of the nodes are there with the names of `start`, and the names
at these places fit in.
-/
structure Prepared (facts : Annotations) (pools : Pools) (start : PoolId → List String)
    (ps : List Place) : Prop where
  noSlot : ∀ id, facts.fetch .slot id = none
  noFrame : ∀ id, facts.fetch .frame id = none
  registered : ∀ id pool, facts.fetch .pool id = some pool → (pools.get? pool).isSome
  lists : ∀ pool p, pools.get? pool = some p → p.Lists (start pool)
  nodup : ∀ pool, (start pool).Nodup
  room : ∀ pool, (namesIn facts start ps pool).length ≤ maxSlots

/-- Where nothing is attached nothing stands in the way. -/
theorem not_outdates_of_fetch {t : SideTable .node Nat} (h : ∀ id, t.fetch id = none)
    (id : NodeId) : ¬ t.Outdates id := by
  rintro ⟨old, hold, -⟩
  have hnone := h (.at id.index old.version)
  rw [SideTable.fetch_eq_some.mpr hold] at hnone
  cases hnone

theorem eraseDups_of_nodup {l : List String} (h : l.Nodup) : l.eraseDups = l := by
  induction l using List.reverseRecOn with
  | nil => rfl
  | append_singleton l name ih =>
    obtain ⟨hl, -, hdisjoint⟩ := List.nodup_append'.mp h
    rw [Pool.eraseDups_concat, if_neg (List.disjoint_singleton.mp hdisjoint), ih hl]

theorem Prepared.tally {ps : List Place} (h : Prepared facts pools start ps) :
    Tally facts start [] pools := by
  have hnames : ∀ pool, namesIn facts start [] pool = start pool := fun pool => by
    show (start pool ++ []).eraseDups = _
    rw [List.append_nil, eraseDups_of_nodup (h.nodup pool)]
  refine ⟨fun pool p hp => ?_, fun pool p hp => ?_⟩
  · rw [hnames]
    exact h.lists pool p hp
  · exact Nat.le_trans (namesIn_prefix_append facts start [] ps pool).length_le (h.room pool)

theorem Clear.ready (h : Clear facts p)
    (hreg : ∀ id pool, facts.fetch .pool id = some pool → (pools.get? pool).isSome) :
    Ready facts pools p := by
  obtain ⟨n, pool, hn, hpool, hread⟩ := h
  exact ⟨n, pool, hn, hpool, fun hnaming => hread (naming_eq_unread.mp hnaming), hreg _ _ hpool⟩

/-- What has been left has been entered. -/
theorem entered_of_leave {es es' : List Event} (hes : ast.events root = es ++ es')
    (hleft : .leave f ∈ es) : .enter f ∈ es := by
  have hf := (Outline.leave_mem_events.mp (show .leave f ∈ ast.events root from
    hes ▸ List.mem_append_left _ hleft)).1
  have hentered : .enter f ∈ ast.events root := Outline.mem_places.mp hf
  rw [hes] at hentered
  rcases List.mem_append.mp hentered with hentered | hentered
  · exact hentered
  · exact absurd List.prefix_rfl (precedes_of_split hes _ hleft _ hentered)

section

variable {es es' : List Event} {l l' : Ledger}

/-- As long as all is clear a run goes on. -/
theorem through_of_clear (hprep : Prepared facts l.pools start (ast.places root))
    (hes : ast.events root = es ++ es')
    (hclear : ∀ q ∈ es.filterMap Event.entered?, Clear facts q) :
    ∃ l', Walk.through (enter ast.source facts) (leave facts) es l = (.ok (), l') ∧
      Tally facts start (es.filterMap Event.entered?) l'.pools ∧ SameKeys l.pools l'.pools := by
  have hready : ∀ q, .enter q ∈ es ∨ .leave q ∈ es → Ready facts l.pools q := by
    intro q hq
    have hentered : .enter q ∈ es := hq.elim id (entered_of_leave hes)
    exact (hclear q (Event.mem_entered.mpr hentered)).ready hprep.registered
  rcases through_ends ast.source hprep.tally hready with
    hdone | ⟨es₁, p, es₂, l', rfl, -, -, -, n, pool, name, -, -, -, -, hfull, -⟩
  · exact hdone
  · -- all names together fit in
    have hplaces : ast.places root = ([] ++ es₁.filterMap Event.entered? ++ [p]) ++
        (es₂.filterMap Event.entered? ++ es'.filterMap Event.entered?) := by
      rw [places_eq_append hes, List.filterMap_append, List.filterMap_cons]
      simp [Event.entered?]
    have hle := (namesIn_prefix_append facts start ([] ++ es₁.filterMap Event.entered? ++ [p])
      (es₂.filterMap Event.entered? ++ es'.filterMap Event.entered?) pool).length_le
    rw [← hplaces] at hle
    exact absurd (Nat.lt_of_lt_of_le hfull (Nat.le_trans hle (hprep.room pool)))
      (Nat.lt_irrefl maxSlots)

/-- At a place that is not clear a run stops. -/
theorem enter_of_not_clear (source : Nat) (h : ¬ Clear facts p) (l : Ledger) :
    ∃ d, enter source facts p l = (.error d, l) ∧ Blames source facts p d := by
  cases hn : p.node? with
  | none =>
    refine ⟨_, ?_, .missing hn⟩
    unfold enter
    rw [hn]
    cases p.above <;> rfl
  | some n =>
    cases hpool : facts.fetch .pool n.id with
    | none =>
      rw [enter_of_none hn hpool]
      exact ⟨_, rfl, .unresolved hn hpool⟩
    | some pool =>
      have hkind : n.kind = .error := by
        by_contra hread
        exact h ⟨n, pool, hn, hpool, hread⟩
      rw [enter_of_some hn hpool]
      unfold enterNode
      rw [naming_eq_unread.mpr hkind]
      exact ⟨_, rfl, .unparsed hn hpool hkind⟩

/-- So a run can be followed to any event. -/
theorem exists_of_clear {later : List Event}
    (hprep : Prepared facts l.pools start (ast.places root))
    (hes : ast.events root = es ++ later)
    (hclear : ∀ q ∈ (es ++ es').filterMap Event.entered?, Clear facts q)
    (hrun : Walk.through (enter ast.source facts) (leave facts) (es ++ es') l = (.ok (), l')) :
    ∃ between, Walk.through (enter ast.source facts) (leave facts) es l = (.ok (), between) ∧
      Walk.through (enter ast.source facts) (leave facts) es' between = (.ok (), l') ∧
      Tally facts start (es.filterMap Event.entered?) between.pools ∧
      SameKeys l.pools between.pools := by
  obtain ⟨between, hfirst, hrest⟩ := Walk.exists_of_through_append hrun
  obtain ⟨reached, hreached, htally, hsame⟩ := through_of_clear hprep hes fun q hq =>
    hclear q (by rw [List.filterMap_append]; exact List.mem_append_left _ hq)
  cases hfirst.symm.trans hreached
  exact ⟨between, hfirst, hrest, htally, hsame⟩

/-- An event comes once. -/
theorem mem_and_ne_of_split {e x : Event} (hes : ast.events root = es ++ e :: es')
    (hx : x ∈ es ∨ x ∈ es') : e ∈ ast.events root ∧ x ∈ ast.events root ∧ e ≠ x := by
  have hirrefl : ∀ e : Event, ¬ e.Precedes e
    | .enter p => List.lt_irrefl p.path
    | .leave _ => fun h => h rfl
  refine ⟨?_, ?_, ?_⟩
  · exact hes ▸ List.mem_append_right _ List.mem_cons_self
  · rw [hes]
    exact List.mem_append.mpr (hx.imp_right (List.mem_cons_of_mem _))
  · rintro rfl
    rcases hx with hx | hx
    · exact hirrefl e (precedes_of_split hes _ hx _ List.mem_cons_self)
    · rw [List.append_cons] at hes
      exact hirrefl e (precedes_of_split hes e
        (List.mem_append_right es (List.mem_singleton_self _)) _ hx)

/-- No two places that are come to have nodes at one index. -/
theorem index_ne_of_enter (h : ast.Untangled root) (hes : ast.events root = es ++ .enter q :: es')
    {r : Place} {m : Node} (hr : .enter r ∈ es ∨ .enter r ∈ es') (hn : q.node? = some n)
    (hm : r.node? = some m) : n.id.index ≠ m.id.index := by
  obtain ⟨hq, hr, hne⟩ := mem_and_ne_of_split hes hr
  exact h.index_ne (mem_places_of_event (.inl hq)) (mem_places_of_event (.inl hr))
    (fun heq => hne (heq ▸ rfl)) hn hm

/-- No two places that are left have nodes at one index. -/
theorem index_ne_of_leave (h : ast.Untangled root) (hes : ast.events root = es ++ .leave q :: es')
    {r : Place} {m : Node} (hr : .leave r ∈ es ∨ .leave r ∈ es') (hn : q.node? = some n)
    (hm : r.node? = some m) : n.id.index ≠ m.id.index := by
  obtain ⟨hq, hr, hne⟩ := mem_and_ne_of_split hes hr
  exact h.index_ne (mem_places_of_event (.inr hq)) (mem_places_of_event (.inr hr))
    (fun heq => hne (heq ▸ rfl)) hn hm

/-- Names that come later leave the slot of a name as it is. -/
theorem Tally.lookup_of_split {ps later : List Place} {pool : PoolId} {name : String} {r : Pool}
    (h : Tally facts start (ps ++ p :: later) pools) (hpool : p.pool? facts = some pool)
    (hname : p.reserved? = some name) (hr : pools.get? pool = some r) :
    r.lookup name = some ((namesIn facts start (ps ++ [p]) pool).idxOf name) := by
  have hmem : name ∈ namesIn facts start (ps ++ [p]) pool := by
    rw [namesIn_concat hpool hname, List.mem_eraseDups]
    exact List.mem_append_right _ (List.mem_singleton_self name)
  obtain ⟨behind, hbehind⟩ := namesIn_prefix_append facts start (ps ++ [p]) later pool
  rw [List.append_assoc, List.singleton_append] at hbehind
  have hlookup := (h.lists pool r hr).lookup_of_mem (hbehind ▸ List.mem_append_left behind hmem)
  rw [hlookup, ← hbehind, List.idxOf_append_of_mem hmem]

/-- What declares a name has the slot of that name. -/
theorem slot_of_through (h : ast.Untangled root)
    (hprep : Prepared facts l.pools start (ast.places root)) (hslots : l.slots = facts.slots)
    (hes : ast.events root = es ++ es')
    (hclear : ∀ q ∈ es.filterMap Event.entered?, Clear facts q)
    (hrun : Walk.through (enter ast.source facts) (leave facts) es l = (.ok (), l'))
    (hq : .enter q ∈ es) (hn : q.node? = some n) {name : String}
    (hnaming : n.kind.naming = .declares name) :
    ∃ pool r slot, facts.fetch .pool n.id = some pool ∧ l'.pools.get? pool = some r ∧
      r.lookup name = some slot ∧ l'.slots.fetch n.id = some slot := by
  obtain ⟨n', pool, hn', hpool, hread⟩ := hclear q (Event.mem_entered.mpr hq)
  obtain rfl := Option.some.inj (hn.symm.trans hn')
  have hreg := hprep.registered _ _ hpool
  -- the pool in the end
  obtain ⟨l'', hrun'', htally, hsame⟩ := through_of_clear hprep hes hclear
  cases hrun.symm.trans hrun''
  obtain ⟨r, hr⟩ := Option.isSome_iff_exists.mp ((hsame pool).trans hreg)
  -- the moment at which the place is come to
  obtain ⟨es₁, es₂, rfl⟩ := List.append_of_mem hq
  rw [List.append_assoc] at hes
  obtain ⟨l₁, hrun₁, hrest, htally₁, hsame₁⟩ := exists_of_clear hprep hes hclear hrun
  rw [Walk.through] at hrest
  rcases enter_step ast.source htally₁ hn hpool (fun hn => hread (naming_eq_unread.mp hn))
    ((hsame₁ pool).trans hreg) with ⟨-, _, -, hstep⟩ | ⟨pools', -, -, hstep⟩
  · rw [Walk.andThen_of_error hstep] at hrest
    cases hrest
  rw [Walk.andThen_of_ok hstep] at hrest
  have hq' : .enter q ∈ ast.events root := hes ▸ List.mem_append_right _ List.mem_cons_self
  have hindex := Arena.index_ne_zero
    (h.acyclic.unfolds_outline.get?_of_node? (mem_places_of_event (.inl hq')) hn).2
  have hslot := fetch_slot_through hrun₁ hrest
    (fun r hr m => index_ne_of_enter h hes (.inl hr) hn)
    (fun r hr m => index_ne_of_enter h hes (.inr (List.mem_append_left es' hr)) hn)
    hindex (hslots ▸ not_outdates_of_fetch hprep.noSlot n.id)
  unfold slotAt? at hslot
  rw [hnaming] at hslot
  refine ⟨pool, r, _, hpool, hr, ?_, hslot⟩
  rw [List.filterMap_append] at htally
  refine Tally.lookup_of_split htally ?_ ?_ hr
  · unfold Place.pool?
    rw [hn]
    exact hpool
  · unfold Place.reserved?
    rw [hn]
    show n.kind.naming.reserved? = _
    rw [hnaming]
    rfl

/-- What was not come to has no slot. -/
theorem no_slot_of_through (h : ast.Untangled root) (hslots : ∀ id, l.slots.fetch id = none)
    (hes : ast.events root = es ++ es')
    (hrun : Walk.through (enter ast.source facts) (leave facts) es l = (.ok (), l'))
    (hq : q ∈ ast.places root) (hnot : .enter q ∉ es) (hn : q.node? = some n) :
    l'.slots.fetch n.id = none := by
  have hne : ∀ r, .enter r ∈ es → ∀ m, r.node? = some m → n.id.index ≠ m.id.index := by
    intro r hr m hm
    have hmem : r ∈ ast.places root :=
      mem_places_of_event (.inl (hes ▸ List.mem_append_left _ hr))
    exact h.index_ne hq hmem (fun heq => hnot (heq ▸ hr)) hn hm
  have hplace := place?_slots_through ast.source facts hne l
  rw [hrun] at hplace
  exact (SideTable.fetch_congr hplace).trans (hslots n.id)

/-- What was not left has no frame, -/
theorem no_frame_of_through (h : ast.Untangled root) (hframes : ∀ id, l.frames.fetch id = none)
    (hes : ast.events root = es ++ es')
    (hrun : Walk.through (enter ast.source facts) (leave facts) es l = (.ok (), l'))
    (hf : f ∈ ast.places root) (hnot : .leave f ∉ es) (hn : f.node? = some n) :
    l'.frames.fetch n.id = none := by
  have hne : ∀ r, .leave r ∈ es → ∀ m, r.node? = some m → m.kind.naming = .frame →
      n.id.index ≠ m.id.index := by
    intro r hr m hm _
    have hmem : r ∈ ast.places root :=
      mem_places_of_event (.inr (hes ▸ List.mem_append_left _ hr))
    exact h.index_ne hf hmem (fun heq => hnot (heq ▸ hr)) hn hm
  have hplace := place?_frames_through ast.source facts hne l
  rw [hrun] at hplace
  exact (SideTable.fetch_congr hplace).trans (hframes n.id)

/-- and a function that was left has one. -/
theorem frame_of_through (h : ast.Untangled root)
    (hprep : Prepared facts l.pools start (ast.places root)) (hframes : l.frames = facts.frames)
    (hes : ast.events root = es ++ es')
    (hclear : ∀ q ∈ es.filterMap Event.entered?, Clear facts q)
    (hrun : Walk.through (enter ast.source facts) (leave facts) es l = (.ok (), l'))
    (hleft : .leave f ∈ es) (hn : f.node? = some n) (hnaming : n.kind.naming = .frame) :
    (l'.frames.fetch n.id).isSome := by
  have hf : f ∈ ast.places root :=
    mem_places_of_event (.inr (hes ▸ List.mem_append_left _ hleft))
  obtain ⟨n', pool, hn', hpool, -⟩ :=
    hclear f (Event.mem_entered.mpr (entered_of_leave hes hleft))
  obtain rfl := Option.some.inj (hn.symm.trans hn')
  obtain ⟨es₁, es₂, rfl⟩ := List.append_of_mem hleft
  rw [List.append_assoc] at hes
  obtain ⟨l₁, hrun₁, hrest, htally₁, hsame₁⟩ := exists_of_clear hprep hes hclear hrun
  rw [Walk.through, Walk.andThen_of_ok (leave_frame htally₁ hn hpool hnaming
    ((hsame₁ pool).trans (hprep.registered _ _ hpool)))] at hrest
  have hindex := Arena.index_ne_zero (h.acyclic.unfolds_outline.get?_of_node? hf hn).2
  rw [fetch_frame_through hrun₁ hrest
    (fun r hr m hm _ => index_ne_of_leave h hes (.inl hr) hn hm)
    (fun r hr m hm _ => index_ne_of_leave h hes (.inr (List.mem_append_left es' hr)) hn hm)
    hindex (hframes ▸ not_outdates_of_fetch hprep.noFrame n.id)]
  rfl

/-- A place has been left if all of it has been come to, and something behind it has not. -/
theorem leave_mem_iff (hes : ast.events root = es ++ .enter p :: es') (hf : f ∈ ast.places root)
    (hlive : f.node?.isSome) :
    .leave f ∈ es ↔ ∀ q ∈ ast.places root, f.path <+: q.path →
      q ∈ es.filterMap Event.entered? := by
  constructor
  · intro hleft q hq hpre
    have hentered : .enter q ∈ ast.events root := Outline.mem_places.mp hq
    rw [hes] at hentered
    rcases List.mem_append.mp hentered with hentered | hentered
    · exact Event.mem_entered.mpr hentered
    · exact absurd hpre (precedes_of_split hes _ hleft _ hentered)
  · intro hall
    have hp : p ∈ ast.places root :=
      mem_places_of_event (.inl (hes ▸ List.mem_append_right _ List.mem_cons_self))
    have hnot : ¬ f.path <+: p.path := fun hpre =>
      List.lt_irrefl p.path (precedes_of_split hes _
        (Event.mem_entered.mp (hall p hp hpre)) _ List.mem_cons_self)
    have hlt : f.path < p.path := precedes_of_split hes _
      (Event.mem_entered.mp (hall f hf List.prefix_rfl)) _ List.mem_cons_self
    exact left_of_lt hes hf hlive hlt hnot

/-- What is left when a run stops behind these places. -/
theorem stopped_of_through (h : ast.Untangled root)
    (hprep : Prepared facts pools start (ast.places root))
    (hes : ast.events root = es ++ .enter p :: es')
    (hclear : ∀ q ∈ es.filterMap Event.entered?, Clear facts q) :
    ∃ l, Walk.through (enter ast.source facts) (leave facts) es
        ⟨facts.slots, facts.frames, pools⟩ = (.ok (), l) ∧
      Stopped ast root facts pools start (es.filterMap Event.entered?) (l.state facts []) := by
  obtain ⟨l, hrun, htally, hsame⟩ :=
    through_of_clear (l := ⟨facts.slots, facts.frames, pools⟩) hprep hes hclear
  refine ⟨l, hrun, hsame, htally.lists, fun q hq n name hn hnaming =>
    slot_of_through h hprep rfl hes hclear hrun (Event.mem_entered.mp hq) hn hnaming,
    fun q hq hnot n hn => ?_, fun f hf n hn hnaming => ?_⟩
  · exact no_slot_of_through (l := ⟨facts.slots, facts.frames, pools⟩) h hprep.noSlot hes hrun hq
      (fun hentered => hnot (Event.mem_entered.mpr hentered)) hn
  · rw [← leave_mem_iff hes hf (by rw [hn]; rfl)]
    refine ⟨fun hsome => ?_, fun hleft => frame_of_through h hprep rfl hes hclear hrun hleft hn
      hnaming⟩
    by_contra hnot
    have hnone : (l.state facts []).facts.fetch .frame n.id = none :=
      no_frame_of_through (l := ⟨facts.slots, facts.frames, pools⟩) h hprep.noFrame hes hrun hf
        hnot hn
    rw [hnone] at hsome
    cases hsome

end

theorem exists_first_defect {ps : List Place} (h : ¬ ∀ p ∈ ps, Clear facts p) :
    ∃ before p after, ps = before ++ p :: after ∧ (∀ q ∈ before, Clear facts q) ∧
      ¬ Clear facts p := by
  induction ps with
  | nil => exact absurd (by simp) h
  | cons first ps ih =>
    by_cases hfirst : Clear facts first
    · have hrest : ¬ ∀ p ∈ ps, Clear facts p := fun hps =>
        h (List.forall_mem_cons.mpr ⟨hfirst, hps⟩)
      obtain ⟨before, p, after, rfl, hbefore, hp⟩ := ih hrest
      exact ⟨first :: before, p, after, rfl, List.forall_mem_cons.mpr ⟨hfirst, hbefore⟩, hp⟩
    · exact ⟨[], first, ps, rfl, by simp, hfirst⟩

/-- At the first place that is not clear the walk fails. -/
theorem traverse_of_not_clear (h : ast.Untangled root)
    (hprep : Prepared facts pools start (ast.places root))
    (hsplit : ast.places root = before ++ p :: after) (hbefore : ∀ q ∈ before, Clear facts q)
    (hp : ¬ Clear facts p) : ∃ d s, traverse ast root { facts, pools } = (.error d, s) ∧
      Blames ast.source facts p d ∧ Stopped ast root facts pools start before s := by
  obtain ⟨es, es', hes, rfl, -⟩ : ∃ es es', ast.events root = es ++ .enter p :: es' ∧
      es.filterMap Event.entered? = before ∧ es'.filterMap Event.entered? = after :=
    Event.exists_split hsplit
  obtain ⟨l, hrun, hstopped⟩ := stopped_of_through h hprep hes hbefore
  obtain ⟨d, hstop, hblames⟩ := enter_of_not_clear ast.source hp l
  refine ⟨d, l.state facts [], ?_, hblames, hstopped⟩
  rw [traverse_eq h.acyclic.unfolds_outline, Walk.onPart, hes, Walk.through_append,
    Walk.andThen_of_ok hrun, Walk.through, Walk.andThen_of_error hstop]

/--
Numbering in pools with room fails exactly if a place is not clear. The first such place is blamed,
and what was attached and reserved until then, and nothing else, stays.
-/
theorem stops_at_first_defect (h : ast.Untangled root)
    (hprep : Prepared facts pools start (ast.places root)) :
    ((traverse ast root { facts, pools }).1 = .ok () ↔ ∀ p ∈ ast.places root, Clear facts p) ∧
    ∀ before p after, ast.places root = before ++ p :: after → (∀ q ∈ before, Clear facts q) →
      ¬ Clear facts p → ∃ d s, traverse ast root { facts, pools } = (.error d, s) ∧
        Blames ast.source facts p d ∧ Stopped ast root facts pools start before s := by
  refine ⟨⟨fun hok => ?_, fun hclear => ?_⟩, fun before p after hsplit hbefore hp =>
    traverse_of_not_clear h hprep hsplit hbefore hp⟩
  · by_contra hdefect
    obtain ⟨before, p, after, hsplit, hbefore, hp⟩ := exists_first_defect hdefect
    obtain ⟨d, s, hrun, -⟩ := traverse_of_not_clear h hprep hsplit hbefore hp
    rw [hrun] at hok
    cases hok
  · obtain ⟨l, hrun, -⟩ := through_of_clear (l := ⟨facts.slots, facts.frames, pools⟩) hprep
      (List.append_nil (ast.events root)).symm hclear
    rw [traverse_eq h.acyclic.unfolds_outline, Walk.onPart, hrun]

/-- Places bring no more names than there are places. -/
theorem length_namesIn_le (facts : Annotations) (start : PoolId → List String) (ps : List Place)
    (pool : PoolId) :
    (namesIn facts start ps pool).length ≤ (start pool).length + ps.length := by
  have hsub : namesIn facts start ps pool ⊆ start pool ++ reservedIn facts pool ps :=
    fun _ => List.mem_eraseDups.mp
  have hreserved : (reservedIn facts pool ps).length ≤ ps.length :=
    Nat.le_trans (List.length_filterMap_le _ _) (List.length_filter_le _ _)
  have hle := ((Pool.nodup_eraseDups _).subperm hsub).length_le
  rw [List.length_append] at hle
  exact Nat.le_trans hle (Nat.add_le_add_left hreserved _)

/--
Definitions of which one is a function with a parameter, the next was not read, and the third is
missing.
-/
theorem stops_at_first_defect_definitions : ∃ (ast : Ast) (root : NodeId) (facts : Annotations)
    (pools : Pools) (before after : List Place) (p : Place), ast.Untangled root ∧
      Prepared facts pools (fun _ => []) (ast.places root) ∧
      ast.places root = before ++ p :: after ∧ before.length = 8 ∧
      (∀ q ∈ before, Clear facts q) ∧ ¬ Clear facts p ∧
      ∃ d s, traverse ast root { facts, pools } = (.error d, s) ∧
        Blames ast.source facts p d ∧ Stopped ast root facts pools (fun _ => []) before s := by
  let kinds : List NodeKind := [.type .int, .param (.at 1 1) "a", .params [.at 2 1], .type .void,
    .statements [], .compound (.at 5 1), .function (.at 4 1) "f" (.at 3 1) (.at 6 1), .error,
    .definitions [.at 7 1, .at 8 1, .null]]
  let ast := kinds.foldl (fun ast kind => (ast.add kind ⟨0, 0, 0⟩).2) (Ast.empty 0)
  have hacyclic : ast.Acyclic (.at 9 1) :=
    (((((((((Ast.rising_empty 0).add (by decide)).add (by decide)).add (by decide)).add
      (by decide)).add (by decide)).add (by decide)).add (by decide)).add (by decide)).add
      (by decide) |>.acyclic _
  have huntangled : ast.Untangled (.at 9 1) := hacyclic.untangled (by decide +kernel)
  let entries : List (NodeId × PoolId) := (List.range' 1 9).map fun i => (.at i 1, .at 1 1)
  let facts : Annotations := { pools := SideTable.empty.insertAll entries }
  let pools := (Pools.create .empty .global).2
  have hprep : Prepared facts pools (fun _ => []) (ast.places (.at 9 1)) := by
    refine ⟨fun id => SideTable.fetch_empty id, fun id => SideTable.fetch_empty id,
      fun id pool hpool => ?_, fun pool p hp => ?_, fun _ => .nil, fun pool => ?_⟩
    · have hall : ∀ entry ∈ entries, facts.fetch .pool entry.1 = some (.at 1 1) := by
        decide +kernel
      rcases SideTable.fetch_insertAll_cases hpool with ⟨entry, hentry, rfl⟩ | hnone
      · cases hpool.symm.trans (hall entry hentry)
        rfl
      · rw [SideTable.fetch_empty] at hnone
        cases hnone
    · unfold pools Pools.create at hp
      rw [Arena.get?_insert, Arena.get?_empty] at hp
      split at hp
      · cases hp
        exact Pool.lists_nil _ _
      · cases hp
    · have hlength : (ast.places (.at 9 1)).length = 10 := by decide +kernel
      have hle := length_namesIn_le facts (fun _ => []) (ast.places (.at 9 1)) pool
      rw [hlength] at hle
      exact Nat.le_trans hle (by decide)
  let top : Spot := ⟨[], .at 9 1, .definitions [.at 7 1, .at 8 1, .null], ⟨0, 0, 0⟩⟩
  let unread : Place := ⟨[1], [top], .at 8 1, some ⟨.at 8 1, .error, ⟨0, 0, 0⟩⟩⟩
  let before := (ast.places (.at 9 1)).take 8
  have hafter : (ast.places (.at 9 1)).drop 8 =
      unread :: [⟨[2], [top], .null, none⟩] := by decide +kernel
  have hsplit : ast.places (.at 9 1) = before ++ unread :: [⟨[2], [top], .null, none⟩] := by
    rw [← hafter, List.take_append_drop]
  have hclear : ∀ q ∈ before, Clear facts q := by
    have hall : ∀ q ∈ before, ∃ n ∈ q.node?,
        facts.fetch .pool n.id = some (.at 1 1) ∧ n.kind ≠ .error := by decide +kernel
    intro q hq
    obtain ⟨n, hn, hpool, hread⟩ := hall q hq
    exact ⟨n, .at 1 1, hn, hpool, hread⟩
  have hdefect : ¬ Clear facts unread := by
    rintro ⟨n, pool, hn, -, hread⟩
    cases hn
    exact hread rfl
  exact ⟨ast, .at 9 1, facts, pools, before, _, unread, huntangled, hprep, hsplit,
    by decide +kernel, hclear, hdefect,
    (stops_at_first_defect huntangled hprep).2 before unread _ hsplit hclear hdefect⟩

end Slots

end FlatScope
