import FlatScope.Proofs.Interruption
import FlatScope.Proofs.Locals

/-!
# Frames

The locals of a function are `this` and the names declared in its scope, each once, in the order of
the text (`ast.locals`). Numbering a resolved tree attaches their positions in that list
(`Numbered`), as the names in the pool of a scope are just those reserved in it (`namesIn_eq`).
-/

namespace FlatScope

def Naming.declared? : Naming → Option String
  | declares name => some name
  | _ => none

theorem Naming.reserved?_eq {naming : Naming} (h : naming ≠ .frame) :
    naming.reserved? = naming.declared? := by
  cases naming <;> first | rfl | exact absurd rfl h

theorem NodeKind.opensScope_of_frame {kind : NodeKind} (h : kind.naming = .frame) :
    kind.opensScope = true := by
  unfold naming at h
  split at h <;> first | rfl | cases h

namespace Place

/-- The name declared at a place. -/
def declared? (p : Place) : Option String := p.node?.bind fun n => n.kind.naming.declared?

/-- The same if the nearest scope is at this path. -/
def declaredIn? (scope : List Nat) (p : Place) : Option String :=
  if p.scope? = some scope then p.declared? else none

/-- The name reserved at a place if the nearest scope is at this path. -/
def reservedIn? (scope : List Nat) (p : Place) : Option String :=
  if p.scope? = some scope then p.reserved? else none

variable {p : Place} {name : String} {scope : List Nat}

theorem declaredIn?_eq_some :
    p.declaredIn? scope = some name ↔ p.scope? = some scope ∧ p.declared? = some name :=
  Option.ite_none_right_eq_some

theorem reservedIn?_eq_some :
    p.reservedIn? scope = some name ↔ p.scope? = some scope ∧ p.reserved? = some name :=
  Option.ite_none_right_eq_some

/-- Only a function reserves a name without declaring it, -/
theorem reserved?_eq (h : ∀ n, p.node? = some n → n.kind.naming ≠ .frame) :
    p.reserved? = p.declared? := by
  unfold reserved? declared?
  cases hn : p.node? with
  | none => rfl
  | some n => exact Naming.reserved?_eq (h n hn)

theorem reserved?_of_declared? (h : p.declared? = some name) : p.reserved? = some name := by
  rw [reserved?_eq, h]
  intro n hn hframe
  unfold declared? at h
  rw [hn, Option.bind_some, hframe] at h
  cases h

/-- and that name is `this`. -/
theorem declared?_of_reserved? (h : p.reserved? = some name) (hne : name ≠ "this") :
    p.declared? = some name := by
  rw [← reserved?_eq, h]
  intro n hn hframe
  unfold reserved? at h
  rw [hn, Option.bind_some, hframe] at h
  exact hne (Option.some.inj h).symm

end Place

namespace Ast

variable {ast : Ast} {root : NodeId} {p q : Place}

/-- The locals of the function at a path, each once. -/
def locals (ast : Ast) (root : NodeId) (function : List Nat) : List String :=
  ("this" :: (ast.places root).filterMap (Place.declaredIn? function)).eraseDups

theorem eq_of_path_eq (hp : p ∈ ast.places root) (hq : q ∈ ast.places root)
    (heq : p.path = q.path) : p = q := by
  have hsorted : (ast.places root).Pairwise fun p q => p.path < q.path :=
    Outline.pairwise_places [] [] _
  have hnodup : ((ast.places root).map (·.path)).Nodup := by
    refine List.pairwise_map.mpr (hsorted.imp fun {p q} hlt heq => ?_)
    rw [heq] at hlt
    exact List.lt_irrefl _ hlt
  exact List.inj_on_of_nodup_map hnodup hp hq heq

theorem Intact.eq_of_id_eq (h : ast.Intact root) (hp : p ∈ ast.places root)
    (hq : q ∈ ast.places root) (heq : p.id = q.id) : p = q := by
  have hpath := h.acyclic.mem_places_iff.mp ⟨p, hp, rfl, rfl⟩
  have hpath' := h.acyclic.mem_places_iff.mp ⟨q, hq, rfl, heq.symm⟩
  exact eq_of_path_eq hp hq (h.once _ _ _ hpath hpath')

theorem Acyclic.intact (h : ast.Acyclic root) (hsound : ∀ p ∈ ast.places root, p.Sound)
    (nodup : ((ast.places root).map (·.id)).Nodup) : ast.Intact root where
  live path id hat := by
    obtain ⟨p, hp, -, rfl⟩ := h.mem_places_iff.mpr hat
    obtain ⟨n, hn, hread⟩ := hsound p hp
    exact ⟨n, (h.unfolds_outline.node?_eq hp).symm.trans hn, hread⟩
  once path path' id hat hat' := by
    obtain ⟨p, hp, rfl, hid⟩ := h.mem_places_iff.mpr hat
    obtain ⟨q, hq, rfl, hid'⟩ := h.mem_places_iff.mpr hat'
    exact congrArg Place.path (List.inj_on_of_nodup_map nodup hp hq (hid.trans hid'.symm))

theorem Intact.sound (h : ast.Intact root) (hp : p ∈ ast.places root) : p.Sound := by
  obtain ⟨n, hn, hread⟩ := h.live _ _ (h.acyclic.mem_places_iff.mp ⟨p, hp, rfl, rfl⟩)
  exact ⟨n, (h.acyclic.unfolds_outline.node?_eq hp).trans hn, hread⟩

end Ast

namespace Slots

variable {ast : Ast} {root : NodeId} {facts : Annotations} {pools : Pools}
  {poolOf : List Nat → PoolId} {ps rest before after : List Place} {p q f : Place} {n : Node}

/-- The places below the top have the pools of their nearest scopes, and these are empty. -/
structure Pooled (ast : Ast) (root : NodeId) (facts : Annotations) (pools : Pools)
    (poolOf : List Nat → PoolId) : Prop where
  pool?_eq : ∀ p ∈ ast.places root, p.pool? facts = some (poolOf p.path)
  nearest : ∀ p ∈ ast.places root, ∃ q ∈ ast.places root, q.opens = true ∧
    p.scope? = some q.path ∧ poolOf p.path = poolOf q.path
  distinct : ∀ p ∈ ast.places root, ∀ q ∈ ast.places root, p.opens = true → q.opens = true →
    poolOf p.path = poolOf q.path → p = q
  registered : ∀ p ∈ ast.places root, (pools.get? (poolOf p.path)).isSome
  opened : ∀ pool p, pools.get? pool = some p →
    ∃ q ∈ ast.places root, q.opens = true ∧ poolOf q.path = pool
  blank : ∀ pool p, pools.get? pool = some p → p.Lists []

/-- Resolving into nothing gives every place the pool of its nearest scope. -/
theorem Pooled.of_visited {s' : Resolve.State} (h : ast.Intact root)
    (hv : Resolve.Visited ast (ast.places root) { facts := .empty, pools := .empty } s' poolOf) :
    Pooled ast root s'.facts s'.pools poolOf := by
  have ho := h.acyclic.unfolds_outline
  have hopened : ∀ q ∈ ast.places root, q.opens = true →
      ∃ kind, s'.pools.get? (poolOf q.path) = some { id := poolOf q.path, kind } := by
    intro q hq hopens
    obtain ⟨n, hn, -⟩ := h.sound hq
    rw [Place.opens_eq hn, NodeKind.opensScope_eq] at hopens
    obtain ⟨kind, hkind⟩ := Option.isSome_iff_exists.mp hopens
    exact ⟨kind, (hv.opened q hq n kind hn hkind).2⟩
  have hnearest : ∀ p ∈ ast.places root, ∃ q ∈ ast.places root, q.opens = true ∧
      p.scope? = some q.path ∧ poolOf p.path = poolOf q.path := by
    intro p hp
    obtain ⟨n, hn, -⟩ := h.sound hp
    exact hv.nearest p hp n hn
  have hplaced : ∀ pool p, s'.pools.get? pool = some p →
      ∃ q ∈ ast.places root, q.opens = true ∧ poolOf q.path = pool := by
    intro pool p hp
    rcases (hv.pools_iff pool).mp ⟨p, hp⟩ with ⟨old, hold⟩ | hplaced
    · cases hold.symm.trans (Arena.get?_empty pool)
    · exact hplaced
  refine ⟨fun p hp => ?_, hnearest, hv.distinct, fun p hp => ?_, hplaced, fun pool p hp => ?_⟩
  · obtain ⟨n, hn, -⟩ := h.sound hp
    obtain ⟨q, hq, hid, -, hfetch⟩ := hv.given p hp n hn (SideTable.not_outdates_empty n.id)
    obtain rfl := h.eq_of_id_eq hq hp (hid.trans (ho.get?_of_node? hp hn).1)
    unfold Place.pool?
    rw [hn]
    exact hfetch
  · obtain ⟨q, hq, hopens, -, hpool⟩ := hnearest p hp
    obtain ⟨kind, hget⟩ := hopened q hq hopens
    rw [hpool, hget]
    rfl
  · obtain ⟨q, hq, hopens, rfl⟩ := hplaced pool p hp
    obtain ⟨kind, hget⟩ := hopened q hq hopens
    obtain rfl := Option.some.inj (hp.symm.trans hget)
    exact Pool.lists_nil _ kind

/-- Resolving an intact tree from nothing leaves it ready to be numbered. -/
theorem exists_pooled (h : ast.Intact root) (hn : ast.get? root = some n)
    (hopens : n.kind.opensScope = true) : ∃ r poolOf,
      Resolve.traverse ast root { facts := .empty, pools := .empty } = (.ok (), r) ∧
        Pooled ast root r.facts r.pools poolOf ∧ r.facts.slots = .empty ∧
          r.facts.frames = .empty := by
  obtain ⟨r, poolOf, hresolve, hvisited⟩ := Resolve.traverse_of_sound .empty .empty hn hopens
    h.acyclic.unfolds_outline fun p hp => h.sound hp
  exact ⟨r, poolOf, hresolve, .of_visited h hvisited, hvisited.table_eq .slot (by decide),
    hvisited.table_eq .frame (by decide)⟩

/-! ## The names in the pool of a function -/

/-- The place of a function. -/
def IsFunction (f : Place) : Prop := ∃ n, f.node? = some n ∧ n.kind.naming = .frame

theorem IsFunction.opens (h : IsFunction f) : f.opens = true := by
  obtain ⟨n, hn, hnaming⟩ := h
  exact (Place.opens_eq hn).trans (NodeKind.opensScope_of_frame hnaming)

theorem IsFunction.scope? (h : IsFunction f) : f.scope? = some f.path := by
  obtain ⟨n, hn, hnaming⟩ := h
  exact Place.scope?_of_opens hn (NodeKind.opensScope_of_frame hnaming)

theorem Pooled.pool?_eq_iff (h : Pooled ast root facts pools poolOf) (hp : p ∈ ast.places root)
    (hf : f ∈ ast.places root) (hopens : f.opens = true) :
    p.pool? facts = some (poolOf f.path) ↔ p.scope? = some f.path := by
  obtain ⟨q, hq, hqopens, hscope, hpool⟩ := h.nearest p hp
  rw [h.pool?_eq p hp, hscope, hpool, Option.some.injEq, Option.some.injEq]
  constructor
  · exact fun heq => congrArg Place.path (h.distinct q hq f hf hqopens hopens heq)
  · exact fun heq => congrArg poolOf heq

/-- Before a place its scope is not the nearest one. -/
theorem scope?_ne_of_lt (hp : p ∈ ast.places root) (hlt : p.path < f.path) :
    p.scope? ≠ some f.path := by
  intro hs
  rcases (Ast.deeper_of_mem_places hp).scope_cases hs with heq | hback
  · rw [heq] at hlt
    exact List.lt_irrefl _ hlt
  · exact List.lt_irrefl _ (List.lt_trans hlt hback)

/-- Behind a place with this scope only declarations reserve names in it. -/
theorem reserved?_eq (hs : p.scope? = some f.path) (hlt : f.path < p.path) :
    p.reserved? = p.declared? := by
  refine Place.reserved?_eq fun n hn hnaming => ?_
  have hself : IsFunction p := ⟨n, hn, hnaming⟩
  obtain heq := Option.some.inj (hs.symm.trans hself.scope?)
  rw [heq] at hlt
  exact List.lt_irrefl _ hlt

/-- The names reserved in the pool of a scope are those of the places in it. -/
theorem reservedIn_eq_filterMap (h : Pooled ast root facts pools poolOf)
    (hps : ps ⊆ ast.places root) (hf : f ∈ ast.places root) (hopens : f.opens = true) :
    reservedIn facts (poolOf f.path) ps = ps.filterMap (Place.reservedIn? f.path) := by
  unfold reservedIn
  rw [List.filterMap_filter]
  refine List.filterMap_congr fun p hp => ?_
  simp only [h.pool?_eq_iff (hps hp) hf hopens, decide_eq_true_eq]
  rfl

/-- From a function on, the names reserved in its scope are `this` and those declared in it. -/
theorem filterMap_reservedIn (hps : ast.places root = ps ++ rest) (hf : f ∈ ps)
    (hfun : IsFunction f) : ps.filterMap (Place.reservedIn? f.path) =
      "this" :: ps.filterMap (Place.declaredIn? f.path) := by
  have hsub : ps ⊆ ast.places root := hps ▸ List.subset_append_left ps rest
  have hsorted := Ast.pairwise_of_prefix hps
  obtain ⟨before, after, rfl⟩ := List.append_of_mem hf
  obtain ⟨-, hafter, hbefore⟩ := List.pairwise_append.mp hsorted
  have hbefore : ∀ p ∈ before, p.scope? ≠ some f.path := fun p hp =>
    scope?_ne_of_lt (hsub (List.mem_append_left _ hp)) (hbefore p hp f List.mem_cons_self)
  have hnone : before.filterMap (Place.reservedIn? f.path) = [] :=
    List.filterMap_eq_nil_iff.mpr fun p hp => if_neg (hbefore p hp)
  have hnone' : before.filterMap (Place.declaredIn? f.path) = [] :=
    List.filterMap_eq_nil_iff.mpr fun p hp => if_neg (hbefore p hp)
  have hscope : f.scope? = some f.path := hfun.scope?
  obtain ⟨n, hn, hnaming⟩ := hfun
  have hthis : f.reservedIn? f.path = some "this" := by
    unfold Place.reservedIn? Place.reserved?
    rw [if_pos hscope, hn, Option.bind_some, hnaming]
    rfl
  have hself : f.declaredIn? f.path = none := by
    unfold Place.declaredIn? Place.declared?
    rw [hn, Option.bind_some, hnaming]
    exact ite_self _
  rw [List.filterMap_append, List.filterMap_append, hnone, hnone', List.nil_append, List.nil_append,
    List.filterMap_cons_none hself, List.filterMap_cons_some hthis]
  refine congrArg _ (List.filterMap_congr fun p hp => ?_)
  unfold Place.reservedIn? Place.declaredIn?
  split
  · next hs => exact reserved?_eq hs ((List.pairwise_cons.mp hafter).1 p hp)
  · rfl

theorem namesIn_eq (h : Pooled ast root facts pools poolOf) (hps : ast.places root = ps ++ rest)
    (hf : f ∈ ps) (hfun : IsFunction f) : namesIn facts (fun _ => []) ps (poolOf f.path) =
      ("this" :: ps.filterMap (Place.declaredIn? f.path)).eraseDups := by
  have hsub : ps ⊆ ast.places root := hps ▸ List.subset_append_left ps rest
  unfold namesIn
  rw [reservedIn_eq_filterMap h hsub (hsub hf) hfun.opens, filterMap_reservedIn hps hf hfun,
    List.nil_append]

/-! ## What a run attaches -/

theorem Pooled.tally (h : Pooled ast root facts pools poolOf) :
    Tally facts (fun _ => []) [] pools where
  lists := h.blank
  fits _ _ _ := Nat.zero_le _

theorem naming_ne_unread (hi : ast.Intact root) (hp : p ∈ ast.places root)
    (hn : p.node? = some n) : n.kind.naming ≠ .unread := by
  obtain ⟨m, hm, hread⟩ := hi.sound hp
  obtain rfl := Option.some.inj (hn.symm.trans hm)
  intro hnaming
  refine hread ?_
  unfold NodeKind.naming at hnaming
  split at hnaming <;> first | assumption | cases hnaming

/-- The pool of a node stays registered. -/
theorem Pooled.pool_of_node (h : Pooled ast root facts pools poolOf) {pools' : Pools}
    (hsame : SameKeys pools pools') (hp : p ∈ ast.places root) (hn : p.node? = some n) :
    facts.fetch .pool n.id = some (poolOf p.path) ∧ (pools'.get? (poolOf p.path)).isSome := by
  have hpool := h.pool?_eq p hp
  unfold Place.pool? at hpool
  rw [hn] at hpool
  exact ⟨hpool, (hsame _).trans (h.registered p hp)⟩

theorem Pooled.ready (h : Pooled ast root facts pools poolOf) (hi : ast.Intact root)
    (hp : p ∈ ast.places root) : Ready facts pools p := by
  obtain ⟨n, hn, -⟩ := hi.sound hp
  obtain ⟨hpool, hreg⟩ := h.pool_of_node (.refl pools) hp hn
  exact ⟨n, _, hn, hpool, naming_ne_unread hi hp hn, hreg⟩

theorem mem_places_of_event (h : .enter p ∈ ast.events root ∨ .leave p ∈ ast.events root) :
    p ∈ ast.places root :=
  h.elim Outline.mem_places.mpr fun h => (Outline.leave_mem_events.mp h).1

section

variable {l l' : Ledger}

theorem Pooled.ready_of_event (h : Pooled ast root facts pools poolOf) (hi : ast.Intact root)
    (hp : .enter p ∈ ast.events root ∨ .leave p ∈ ast.events root) : Ready facts pools p :=
  h.ready hi (mem_places_of_event hp)

/-- After a part of a run that succeeds the tally holds for the places entered. -/
theorem tally_of_prefix (h : Pooled ast root facts l.pools poolOf) (hi : ast.Intact root)
    {es es' : List Event} (hes : ast.events root = es ++ es')
    (hrun : Walk.through (enter ast.source facts) (leave facts) es l = (.ok (), l')) :
    Tally facts (fun _ => []) (es.filterMap Event.entered?) l'.pools ∧
      SameKeys l.pools l'.pools := by
  have hready : ∀ p, .enter p ∈ es ∨ .leave p ∈ es → Ready facts l.pools p := fun p hp =>
    h.ready_of_event hi (hes ▸ hp.imp (List.mem_append_left _) (List.mem_append_left _))
  rcases through_cases ast.source h.tally hready with
    ⟨l₁, hrun', htally, hsame⟩ | ⟨⟨d, l₁, hrun'⟩, -⟩
  · rw [hrun] at hrun'
    cases hrun'
    exact ⟨htally, hsame⟩
  · rw [hrun] at hrun'
    cases hrun'

/-- A node with another index than all these places keeps its slot. -/
theorem place?_slots_through (source : Nat) (facts : Annotations) {es : List Event} {index : Nat}
    (hne : ∀ p, .enter p ∈ es → ∀ n, p.node? = some n → index ≠ n.id.index) (l : Ledger) :
    (Walk.through (enter source facts) (leave facts) es l).2.slots.place? index =
      l.slots.place? index :=
  Walk.through_frame (·.slots.place? index) (fun p hp => place?_slots_enter (hne p hp))
    (fun p _ l => congrArg (SideTable.place? · index) (slots_leave facts p l)) l

theorem place?_frames_through (source : Nat) (facts : Annotations) {es : List Event}
    {index : Nat} (hne : ∀ p, .leave p ∈ es → ∀ n, p.node? = some n →
      n.kind.naming = .frame → index ≠ n.id.index) (l : Ledger) :
    (Walk.through (enter source facts) (leave facts) es l).2.frames.place? index =
      l.frames.place? index :=
  Walk.through_frame (·.frames.place? index)
    (fun p _ l => congrArg (SideTable.place? · index) (frames_enter source facts p l))
    (fun p hp => place?_frames_leave (hne p hp)) l

/-- The slot of a node that is entered once, where before there was nothing newer. -/
theorem fetch_slot_through {source : Nat} {facts : Annotations} {es₁ es₂ : List Event}
    {l₁ : Ledger} {pools' : Pools} {slot? : Option Nat}
    (hrun₁ : Walk.through (enter source facts) (leave facts) es₁ l = (.ok (), l₁))
    (hrun₂ : Walk.through (enter source facts) (leave facts) es₂
      (l₁.withSlot? n.id slot? pools') = (.ok (), l'))
    (hne₁ : ∀ q, .enter q ∈ es₁ → ∀ m, q.node? = some m → n.id.index ≠ m.id.index)
    (hne₂ : ∀ q, .enter q ∈ es₂ → ∀ m, q.node? = some m → n.id.index ≠ m.id.index)
    (hindex : n.id.index ≠ 0) (hnew : ¬ l.slots.Outdates n.id) :
    l'.slots.fetch n.id = slot?.or (l.slots.fetch n.id) := by
  have hplace₁ := place?_slots_through source facts hne₁ l
  have hplace₂ := place?_slots_through source facts hne₂ (l₁.withSlot? n.id slot? pools')
  rw [hrun₁] at hplace₁
  rw [hrun₂] at hplace₂
  rw [SideTable.fetch_congr hplace₂]
  cases slot? with
  | none =>
    rw [Option.none_or]
    exact SideTable.fetch_congr hplace₁
  | some slot =>
    rw [Option.some_or]
    exact l₁.slots.fetch_insert_self hindex
      (fun hout => hnew ((SideTable.outdates_congr hplace₁).mp hout)) slot

/-- The frame of a function that is left once, where before there was nothing newer. -/
theorem fetch_frame_through {source : Nat} {facts : Annotations} {es₁ es₂ : List Event}
    {l₁ : Ledger} {size : Nat}
    (hrun₁ : Walk.through (enter source facts) (leave facts) es₁ l = (.ok (), l₁))
    (hrun₂ : Walk.through (enter source facts) (leave facts) es₂
      { l₁ with frames := l₁.frames.insert n.id size } = (.ok (), l'))
    (hne₁ : ∀ q, .leave q ∈ es₁ → ∀ m, q.node? = some m → m.kind.naming = .frame →
      n.id.index ≠ m.id.index)
    (hne₂ : ∀ q, .leave q ∈ es₂ → ∀ m, q.node? = some m → m.kind.naming = .frame →
      n.id.index ≠ m.id.index)
    (hindex : n.id.index ≠ 0) (hnew : ¬ l.frames.Outdates n.id) :
    l'.frames.fetch n.id = some size := by
  have hplace₁ := place?_frames_through source facts hne₁ l
  have hplace₂ := place?_frames_through source facts hne₂
    { l₁ with frames := l₁.frames.insert n.id size }
  rw [hrun₁] at hplace₁
  rw [hrun₂] at hplace₂
  rw [SideTable.fetch_congr hplace₂]
  exact l₁.frames.fetch_insert_self hindex
    (fun hout => hnew ((SideTable.outdates_congr hplace₁).mp hout)) size

/-- Other places have nodes with other indices. -/
theorem index_ne (hi : ast.Intact root) (hp : p ∈ ast.places root) (hq : q ∈ ast.places root)
    (hne : p ≠ q) {m : Node} (hn : p.node? = some n) (hm : q.node? = some m) :
    n.id.index ≠ m.id.index := by
  have ho := hi.acyclic.unfolds_outline
  obtain ⟨hid, hget⟩ := ho.get?_of_node? hp hn
  obtain ⟨hid', hget'⟩ := ho.get?_of_node? hq hm
  intro heq
  have hids : p.id = q.id := hid.symm.trans ((Arena.eq_of_index_eq hget hget' heq).trans hid')
  exact hne (hi.eq_of_id_eq hp hq hids)

/-- The places that a part of a run comes to are the first ones. -/
theorem places_eq_append {es es' : List Event} (hes : ast.events root = es ++ es') :
    ast.places root = es.filterMap Event.entered? ++ es'.filterMap Event.entered? := by
  show (ast.events root).filterMap Event.entered? = _
  rw [hes, List.filterMap_append]

/-- A run comes to every place with the names of the places before. -/
theorem exists_entered (h : Pooled ast root facts l.pools poolOf) (hi : ast.Intact root)
    {es es' : List Event} (hes : ast.events root = es ++ es')
    (hrun : Walk.through (enter ast.source facts) (leave facts) es l = (.ok (), l'))
    (hsplit : es.filterMap Event.entered? = before ++ p :: after) (hn : p.node? = some n) :
    ∃ es₁ es₂ l₁ pools', es₁.filterMap Event.entered? = before ∧
      es₂.filterMap Event.entered? = after ∧
      Walk.through (enter ast.source facts) (leave facts) es₁ l = (.ok (), l₁) ∧
      Walk.through (enter ast.source facts) (leave facts) es₂
        (l₁.withSlot? n.id (slotAt? facts (fun _ => []) before p n (poolOf p.path)) pools') =
          (.ok (), l') := by
  obtain ⟨es₁, es₂, rfl, hbefore, hafter⟩ := Event.exists_split hsplit
  have hp : p ∈ ast.places root := by
    rw [places_eq_append hes, hsplit]
    exact List.mem_append_left _ (List.mem_append_right _ List.mem_cons_self)
  obtain ⟨l₁, hrun₁, hrest⟩ := Walk.exists_of_through_append hrun
  rw [List.append_assoc] at hes
  obtain ⟨htally, hsame⟩ := tally_of_prefix h hi hes hrun₁
  rw [hbefore] at htally
  obtain ⟨hpool, hreg⟩ := h.pool_of_node hsame hp hn
  rw [Walk.through] at hrest
  rcases enter_step ast.source htally hn hpool (naming_ne_unread hi hp hn) hreg with
    ⟨-, name, -, hstep⟩ | ⟨pools', -, -, hstep⟩
  · rw [Walk.andThen_of_error hstep] at hrest
    cases hrest
  · rw [Walk.andThen_of_ok hstep] at hrest
    exact ⟨es₁, es₂, l₁, pools', hbefore, hafter, hrun₁, hrest⟩

/-- The slot of a node that a part of a run came to, where before there was nothing newer. -/
theorem fetch_slot_of_prefix (h : Pooled ast root facts l.pools poolOf) (hi : ast.Intact root)
    {es es' : List Event} (hes : ast.events root = es ++ es')
    (hrun : Walk.through (enter ast.source facts) (leave facts) es l = (.ok (), l'))
    (hsplit : es.filterMap Event.entered? = before ++ p :: after) (hn : p.node? = some n)
    (hnew : ¬ l.slots.Outdates n.id) : l'.slots.fetch n.id =
      (slotAt? facts (fun _ => []) before p n (poolOf p.path)).or (l.slots.fetch n.id) := by
  have hplaces := places_eq_append hes
  rw [hsplit] at hplaces
  obtain ⟨es₁, es₂, l₁, pools', rfl, rfl, hrun₁, hrun₂⟩ := exists_entered h hi hes hrun hsplit hn
  have hmem : ∀ q ∈ es₁.filterMap Event.entered? ++ p :: es₂.filterMap Event.entered?,
      q ∈ ast.places root := fun q hq => hplaces ▸ List.mem_append_left _ hq
  have hp := hmem p (List.mem_append_right _ List.mem_cons_self)
  obtain ⟨-, hlater, hearlier⟩ := List.pairwise_append.mp (Ast.pairwise_of_prefix hplaces)
  -- no other place has this index
  have hother : ∀ q ∈ ast.places root, q ≠ p → ∀ m, q.node? = some m → n.id.index ≠ m.id.index :=
    fun q hq hne m hm => index_ne hi hp hq hne.symm hn hm
  have hne₁ : ∀ q, .enter q ∈ es₁ → ∀ m, q.node? = some m → n.id.index ≠ m.id.index := by
    intro q hq
    have hq := Event.mem_entered.mpr hq
    refine hother q (hmem q (List.mem_append_left _ hq)) fun heq => ?_
    exact List.lt_irrefl _ (heq ▸ hearlier q hq p List.mem_cons_self)
  have hne₂ : ∀ q, .enter q ∈ es₂ → ∀ m, q.node? = some m → n.id.index ≠ m.id.index := by
    intro q hq
    have hq := Event.mem_entered.mpr hq
    refine hother q (hmem q (List.mem_append_right _ (List.mem_cons_of_mem _ hq))) fun heq => ?_
    exact List.lt_irrefl _ (heq ▸ (List.pairwise_cons.mp hlater).1 q hq)
  have hindex := Arena.index_ne_zero (hi.acyclic.unfolds_outline.get?_of_node? hp hn).2
  exact fetch_slot_through hrun₁ hrun₂ hne₁ hne₂ hindex hnew

/-- The slot of a node after a run. -/
theorem fetch_slot (h : Pooled ast root facts l.pools poolOf) (hi : ast.Intact root)
    (hrun : Walk.through (enter ast.source facts) (leave facts) (ast.events root) l = (.ok (), l'))
    (hsplit : ast.places root = before ++ p :: after) (hn : p.node? = some n)
    (hnew : ¬ l.slots.Outdates n.id) : l'.slots.fetch n.id =
      (slotAt? facts (fun _ => []) before p n (poolOf p.path)).or (l.slots.fetch n.id) :=
  fetch_slot_of_prefix h hi (List.append_nil _).symm hrun hsplit hn hnew

/-- When a function is left, all its locals have been met. -/
theorem namesIn_of_leave (h : Pooled ast root facts pools poolOf) (hf : f ∈ ast.places root)
    (hfun : IsFunction f) {es₁ es₂ : List Event}
    (hes : ast.events root = es₁ ++ .leave f :: es₂) :
    namesIn facts (fun _ => []) (es₁.filterMap Event.entered?) (poolOf f.path) =
      ast.locals root f.path := by
  have hprecedes : (es₁ ++ .leave f :: es₂).Pairwise Event.Precedes :=
    hes ▸ Outline.pairwise_events [] [] (ast.outline root)
  obtain ⟨-, hlater, -⟩ := List.pairwise_append.mp hprecedes
  have hplaces : ast.places root =
      es₁.filterMap Event.entered? ++ es₂.filterMap Event.entered? :=
    (places_eq_append hes).trans rfl
  -- what is below a function is entered before the function is left
  have houtside : ∀ p ∈ es₂.filterMap Event.entered?, p.scope? ≠ some f.path := fun p hp hs =>
    (List.pairwise_cons.mp hlater).1 _ (Event.mem_entered.mp hp)
      (Ast.prefix_of_scope? (hplaces ▸ List.mem_append_right _ hp) hs)
  have hf₁ : f ∈ es₁.filterMap Event.entered? := by
    rw [hplaces] at hf
    exact (List.mem_append.mp hf).resolve_right fun hf₂ => houtside f hf₂ hfun.scope?
  have hnone : (es₂.filterMap Event.entered?).filterMap (Place.declaredIn? f.path) = [] :=
    List.filterMap_eq_nil_iff.mpr fun p hp => if_neg (houtside p hp)
  rw [namesIn_eq h hplaces hf₁ hfun]
  unfold Ast.locals
  rw [hplaces, List.filterMap_append, hnone, List.append_nil]

/-- The size of a frame that a part of a run has left, where before there was nothing newer. -/
theorem fetch_frame_of_prefix (h : Pooled ast root facts l.pools poolOf) (hi : ast.Intact root)
    {es es' : List Event} (hes : ast.events root = es ++ es')
    (hrun : Walk.through (enter ast.source facts) (leave facts) es l = (.ok (), l'))
    (hleft : .leave f ∈ es) (hn : f.node? = some n) (hnaming : n.kind.naming = .frame)
    (hnew : ¬ l.frames.Outdates n.id) :
    l'.frames.fetch n.id = some (ast.locals root f.path).length := by
  have hf : f ∈ ast.places root :=
    (Outline.leave_mem_events.mp (show _ ∈ ast.events root from
      hes ▸ List.mem_append_left _ hleft)).1
  obtain ⟨es₁, es₂, rfl⟩ := List.append_of_mem hleft
  have hall : ast.events root = es₁ ++ .leave f :: (es₂ ++ es') := by
    rw [hes, List.append_assoc, List.cons_append]
  have hprecedes : (es₁ ++ .leave f :: (es₂ ++ es')).Pairwise Event.Precedes :=
    hall ▸ Outline.pairwise_events [] [] (ast.outline root)
  obtain ⟨-, hlater, hearlier⟩ := List.pairwise_append.mp hprecedes
  -- no other place has this index
  have hother : ∀ q, .leave q ∈ ast.events root → q.path ≠ f.path → ∀ m, q.node? = some m →
      n.id.index ≠ m.id.index := fun q hq hne m hm =>
    index_ne hi hf (Outline.leave_mem_events.mp hq).1 (fun heq => hne (heq ▸ rfl)) hn hm
  have hne₁ : ∀ q, .leave q ∈ es₁ → ∀ m, q.node? = some m → m.kind.naming = .frame →
      n.id.index ≠ m.id.index := fun q hq m hm _ =>
    hother q (hall ▸ List.mem_append_left _ hq) (hearlier _ hq _ List.mem_cons_self) m hm
  have hne₂ : ∀ q, .leave q ∈ es₂ → ∀ m, q.node? = some m → m.kind.naming = .frame →
      n.id.index ≠ m.id.index := by
    intro q hq m hm _
    have hq' := List.mem_append_left es' hq
    exact hother q (hall ▸ List.mem_append_right _ (List.mem_cons_of_mem _ hq'))
      (Ne.symm ((List.pairwise_cons.mp hlater).1 _ hq')) m hm
  have hnames := namesIn_of_leave h hf ⟨n, hn, hnaming⟩ hall
  obtain ⟨l₁, hrun₁, hrest⟩ := Walk.exists_of_through_append hrun
  obtain ⟨htally, hsame⟩ := tally_of_prefix h hi hall hrun₁
  obtain ⟨hpool, hreg⟩ := h.pool_of_node hsame hf hn
  rw [Walk.through, Walk.andThen_of_ok (leave_frame htally hn hpool hnaming hreg), hnames] at hrest
  have hindex := Arena.index_ne_zero (hi.acyclic.unfolds_outline.get?_of_node? hf hn).2
  exact fetch_frame_through hrun₁ hrest hne₁ hne₂ hindex hnew

/-- The size of a frame after a run. -/
theorem fetch_frame (h : Pooled ast root facts l.pools poolOf) (hi : ast.Intact root)
    (hrun : Walk.through (enter ast.source facts) (leave facts) (ast.events root) l = (.ok (), l'))
    (hf : f ∈ ast.places root) (hn : f.node? = some n) (hnaming : n.kind.naming = .frame)
    (hnew : ¬ l.frames.Outdates n.id) :
    l'.frames.fetch n.id = some (ast.locals root f.path).length :=
  fetch_frame_of_prefix h hi (List.append_nil _).symm hrun
    (Outline.leave_mem_events.mpr ⟨hf, by rw [hn]; rfl⟩) hn hnaming hnew

/-- Only functions get a frame. -/
theorem naming_of_fetch_frame (ho : ast.Unfolds (ast.outline root)) {r : Except Diagnostic Unit}
    (hrun : Walk.through (enter ast.source facts) (leave facts) (ast.events root) l = (r, l'))
    (hempty : l.frames = .empty) {id : NodeId} {size : Nat} (hn : ast.get? id = some n)
    (hsize : l'.frames.fetch id = some size) : n.kind.naming = .frame := by
  by_contra hnaming
  have hne : ∀ p, .leave p ∈ ast.events root → ∀ m, p.node? = some m →
      m.kind.naming = .frame → id.index ≠ m.id.index := by
    intro p hp m hm hframe hindex
    obtain ⟨-, hget⟩ := ho.get?_of_node? (Outline.leave_mem_events.mp hp).1 hm
    obtain rfl := Arena.eq_of_index_eq hget hn hindex.symm
    obtain rfl := Option.some.inj (hget.symm.trans hn)
    exact hnaming hframe
  have hplace := place?_frames_through ast.source facts hne l
  rw [hrun, hempty] at hplace
  have hfetch : l'.frames.fetch id = none :=
    (SideTable.fetch_congr hplace).trans (SideTable.fetch_empty id)
  cases hsize.symm.trans hfetch

end

end Slots

end FlatScope
