import FlatScope.Proofs.LocalSlots
import FlatScope.Proofs.Room

/-!
# Full frames

Numbering a resolved tree either succeeds, or stops at the first declaration that brings a new name
to a scope whose slots are all given away (`Overflows`). `Halted` says what it leaves: functions
that it was through with are numbered as ever, the others have no frame.
-/

namespace FlatScope.Slots

variable {ast : Ast} {root : NodeId} {facts : Annotations} {pools : Pools}
  {poolOf : List Nat → PoolId} {ps rest before after : List Place} {p q f : Place} {n m : Node}
  {name : String} {scope : List Nat}

/-- The different names reserved in a scope at these places, in the order in which they came. -/
def namesOf (scope : List Nat) (ps : List Place) : List String :=
  (ps.filterMap (Place.reservedIn? scope)).eraseDups

/-- Behind these places a declaration brings a new name to a full scope. -/
structure Overflows (before : List Place) (p : Place) (scope : List Nat) (name : String) :
    Prop where
  scope?_eq : p.scope? = some scope
  declared?_eq : p.declared? = some name
  full : (namesOf scope before).length = maxSlots
  fresh : name ∉ namesOf scope before

/-- What a run leaves that stopped at a node behind these places. -/
structure Halted (ast : Ast) (root : NodeId) (before : List Place) (p : Place) (n : Node)
    (scope : List Nat) (s : State) : Prop where
  slot : s.facts.fetch .slot n.id = none
  /-- what is above the place or behind it has no frame, -/
  frame : ∀ f ∈ ast.places root, ∀ m, f.node? = some m → f.path <+: p.path ∨ p.path < f.path →
    s.facts.fetch .frame m.id = none
  /-- what comes before it and does not contain it is numbered as in any other run, -/
  finished : ∀ f ∈ ast.places root, IsFunction f → f.path < p.path → ¬ f.path <+: p.path →
    Numbered ast root s.facts f
  /-- and the pool of the node keeps its names -/
  listed : ∃ pool q, s.facts.fetch .pool n.id = some pool ∧ s.pools.get? pool = some q ∧
    q.size = maxSlots ∧ ∀ name slot, q.lookup name = some slot ↔
      (namesOf scope before)[slot]? = some name

theorem namesIn_eq_namesOf (h : Pooled ast root facts pools poolOf) (hps : ps ⊆ ast.places root)
    (hf : f ∈ ast.places root) (hopens : f.opens = true) :
    namesIn facts (fun _ => []) ps (poolOf f.path) = namesOf f.path ps := by
  unfold namesIn
  rw [reservedIn_eq_filterMap h hps hf hopens, List.nil_append]
  rfl

theorem namesOf_concat (hs : p.scope? = some scope) (hname : p.reserved? = some name) :
    namesOf scope (ps ++ [p]) =
      if name ∈ namesOf scope ps then namesOf scope ps else namesOf scope ps ++ [name] := by
  have hreserved : p.reservedIn? scope = some name := by
    unfold Place.reservedIn?
    rw [if_pos hs, hname]
  unfold namesOf
  rw [List.filterMap_append, List.filterMap_cons_some hreserved, List.filterMap_nil,
    Pool.eraseDups_concat]
  simp only [List.mem_eraseDups]

theorem nodup_namesOf (scope : List Nat) (ps : List Place) : (namesOf scope ps).Nodup :=
  Pool.nodup_eraseDups _

/-- Before a place nothing is reserved in a scope that opens there. -/
theorem namesOf_eq_nil (hsplit : ast.places root = before ++ p :: after) :
    namesOf p.path before = [] := by
  have hnone : before.filterMap (Place.reservedIn? p.path) = [] := by
    refine List.filterMap_eq_nil_iff.mpr fun q hq => if_neg ?_
    have hmem : q ∈ ast.places root := hsplit ▸ List.mem_append_left _ hq
    have hsorted := Ast.pairwise_of_prefix (hsplit.trans (List.append_nil _).symm)
    exact scope?_ne_of_lt hmem ((List.pairwise_append.mp hsorted).2.2 q hq p List.mem_cons_self)
  unfold namesOf
  rw [hnone]
  rfl

/-- A name that makes a list too long is new, declared, and comes to a full scope. -/
theorem overflows_of_lt (hsplit : ast.places root = before ++ p :: after)
    (hs : p.scope? = some scope) (hname : p.reserved? = some name)
    (hfits : (namesOf scope before).length ≤ maxSlots)
    (hlong : maxSlots < (namesOf scope (before ++ [p])).length) :
    Overflows before p scope name := by
  rw [namesOf_concat hs hname] at hlong
  split at hlong
  · exact absurd hfits (Nat.not_le.mpr hlong)
  · next hfresh =>
    rw [List.length_append, List.length_singleton] at hlong
    have hfull : (namesOf scope before).length = maxSlots :=
      Nat.le_antisymm hfits (Nat.lt_succ_iff.mp hlong)
    refine ⟨hs, ?_, hfull, hfresh⟩
    -- the first name of a function comes to an empty scope
    have hframe : ¬ IsFunction p := by
      intro hfun
      obtain rfl := Option.some.inj (hs.symm.trans hfun.scope?)
      rw [namesOf_eq_nil hsplit] at hfull
      cases hfull
    rw [← hname]
    exact (Place.reserved?_eq fun n hn hnaming => hframe ⟨n, hn, hnaming⟩).symm

theorem Overflows.length_concat (h : Overflows before p scope name) :
    (namesOf scope (before ++ [p])).length = maxSlots + 1 := by
  have hname := Place.reserved?_of_declared? h.declared?_eq
  rw [namesOf_concat h.scope?_eq hname, if_neg h.fresh, List.length_append, h.full]
  rfl

/-- Where the tally was kept no scope was too full. -/
theorem Overflows.false_of_tally (h : Overflows before q scope name)
    (hpooled : Pooled ast root facts pools poolOf) {pools' : Pools} (hsame : SameKeys pools pools')
    (htally : Tally facts (fun _ => []) (before ++ q :: after) pools')
    (hps : ast.places root = (before ++ q :: after) ++ rest) : False := by
  have hsub : before ++ q :: after ⊆ ast.places root := hps ▸ List.subset_append_left _ _
  have hq := hsub (List.mem_append_right before List.mem_cons_self)
  obtain ⟨top, htop, hopens, hs, -⟩ := hpooled.nearest q hq
  obtain rfl := Option.some.inj (h.scope?_eq.symm.trans hs)
  obtain ⟨r, hr⟩ := Option.isSome_iff_exists.mp
    ((hsame (poolOf top.path)).trans (hpooled.registered top htop))
  have hfits := htally.fits _ r hr
  have hlonger := (namesIn_prefix_append facts (fun _ => []) (before ++ [q]) after
    (poolOf top.path)).length_le
  have hbefore : before ++ [q] ⊆ ast.places root := fun p hp => hsub (by
    rw [List.append_cons]
    exact List.mem_append_left _ hp)
  rw [← List.append_cons, namesIn_eq_namesOf hpooled hbefore htop hopens,
    h.length_concat] at hlonger
  exact absurd hfits (Nat.not_le.mpr hlonger)

/-! ## What the place where a run stopped says about the others -/

section

variable {es₁ es₂ : List Event}

/-- Two parts of a run are in the order of events. -/
theorem precedes_of_split (hes : ast.events root = es₁ ++ es₂) :
    ∀ e ∈ es₁, ∀ e' ∈ es₂, e.Precedes e' := by
  have hprecedes : (es₁ ++ es₂).Pairwise Event.Precedes :=
    hes ▸ Outline.pairwise_events [] [] (ast.outline root)
  exact (List.pairwise_append.mp hprecedes).2.2

/-- What is above a place or behind it has not been left when the place is come to. -/
theorem not_left (hes : ast.events root = es₁ ++ .enter p :: es₂) (hf : f ∈ ast.places root)
    (hpath : f.path <+: p.path ∨ p.path < f.path) : .leave f ∉ es₁ := by
  intro hleft
  have hprecedes := precedes_of_split hes
  have hnot : ¬ f.path <+: p.path := hprecedes _ hleft _ List.mem_cons_self
  have hlt := hpath.resolve_left hnot
  -- it has been entered before `p`, as it has been left before
  have hentered : .enter f ∈ ast.events root := Outline.mem_places.mp hf
  rw [hes] at hentered
  rcases List.mem_append.mp hentered with hentered | hentered
  · have hback : f.path < p.path := hprecedes _ hentered _ List.mem_cons_self
    exact List.lt_irrefl _ (List.lt_trans hlt hback)
  · have hself : ¬ f.path <+: f.path := hprecedes _ hleft _ hentered
    exact hself List.prefix_rfl

/-- What comes before a place and is not above it has been left when the place is come to. -/
theorem left_of_lt (hes : ast.events root = es₁ ++ .enter p :: es₂) (hf : f ∈ ast.places root)
    (hlive : f.node?.isSome) (hlt : f.path < p.path) (hnot : ¬ f.path <+: p.path) :
    .leave f ∈ es₁ := by
  have hleft : .leave f ∈ ast.events root := Outline.leave_mem_events.mpr ⟨hf, hlive⟩
  rw [hes, List.append_cons] at hleft
  rw [List.append_cons] at hes
  rcases List.mem_append.mp hleft with hleft | hleft
  · rcases List.mem_append.mp hleft with hleft | hleft
    · exact hleft
    · cases List.mem_singleton.mp hleft
  · have hbehind : p.path < f.path ∨ f.path <+: p.path := precedes_of_split hes _
      (List.mem_append_right es₁ (List.mem_singleton_self _)) _ hleft
    rcases hbehind with hback | hpre
    · exact absurd (List.lt_trans hlt hback) (List.lt_irrefl _)
    · exact absurd hpre hnot

/-- A place in a scope that has been left has been come to. -/
theorem entered_of_left {es : List Event} (hes : ast.events root = es ++ es₂)
    (hleft : .leave f ∈ es) (hp : p ∈ ast.places root) (hs : p.scope? = some f.path) :
    .enter p ∉ es₂ := by
  intro hentered
  have hnot : ¬ f.path <+: p.path := precedes_of_split hes _ hleft _ hentered
  exact hnot (Ast.prefix_of_scope? hp hs)

end

/-- Splitting all places at one of the first splits the first. -/
theorem exists_split_of_prefix (hps : ast.places root = ps ++ rest)
    (hsplit : ast.places root = before ++ p :: after) (hnot : p ∉ rest) :
    ∃ after', ps = before ++ p :: after' := by
  rcases List.append_eq_append_iff.mp (hps.symm.trans hsplit) with
    ⟨between, rfl, hrest⟩ | ⟨between, rfl, hrest⟩
  · exact absurd (hrest ▸ List.mem_append_right between List.mem_cons_self) hnot
  · cases between with
    | nil =>
      rw [List.nil_append] at hrest
      exact absurd (hrest ▸ List.mem_cons_self) hnot
    | cons q between =>
      obtain ⟨rfl, -⟩ := List.cons.inj hrest
      exact ⟨between, rfl⟩

/-- The slots at the places in a function, and its frame, are what makes it numbered. -/
theorem Numbered.of_slotAt? {facts' : Annotations} (h : Pooled ast root facts pools poolOf)
    (hf : f ∈ ast.places root) (hfun : IsFunction f)
    (hslot : ∀ before p after n, ast.places root = before ++ p :: after → p.node? = some n →
      p.scope? = some f.path → facts'.fetch .slot n.id =
        slotAt? facts (fun _ => []) before p n (poolOf p.path))
    (hframe : ∀ n, f.node? = some n →
      facts'.fetch .frame n.id = some (ast.locals root f.path).length) :
    Numbered ast root facts' f := by
  refine ⟨fun p hp n name hn hnaming hs => ?_,
    fun before p after n name hsplit hn hnaming htype hs => ?_,
    fun p hp n hn hs hnaming hread => ?_, hframe⟩
  · obtain ⟨before, after, hsplit⟩ := List.append_of_mem hp
    rw [hslot before p after n hsplit hn hs]
    exact slotAt?_of_declares h hf hfun hsplit hn hnaming hs
  · rw [hslot before p after n hsplit hn hs]
    exact slotAt?_of_reads h hf hfun hsplit hn hnaming htype hs
  · obtain ⟨before, after, hsplit⟩ := List.append_of_mem hp
    rw [hslot before p after n hsplit hn hs]
    exact slotAt?_of_other hnaming hread _

section

variable {l l' : Ledger} {es es' : List Event}

/-- No slot is attached at a place that was not come to. -/
theorem fetch_slot_of_not_entered (hi : ast.Intact root) (hes : ast.events root = es ++ es')
    (hrun : Walk.through (enter ast.source facts) (leave facts) es l = (.ok (), l'))
    (hempty : l.slots = .empty) (hp : p ∈ ast.places root) (hnot : .enter p ∉ es)
    (hn : p.node? = some n) : l'.slots.fetch n.id = none := by
  have hne : ∀ q, .enter q ∈ es → ∀ m, q.node? = some m → n.id.index ≠ m.id.index := by
    intro q hq m hm
    have hmem : q ∈ ast.places root :=
      mem_places_of_event (.inl (hes ▸ List.mem_append_left _ hq))
    exact index_ne hi hp hmem (fun heq => hnot (heq ▸ hq)) hn hm
  have hplace := place?_slots_through ast.source facts hne l
  rw [hrun, hempty] at hplace
  exact (SideTable.fetch_congr hplace).trans (SideTable.fetch_empty n.id)

/-- No frame is attached at a place that was not left. -/
theorem fetch_frame_of_not_left (hi : ast.Intact root) (hes : ast.events root = es ++ es')
    (hrun : Walk.through (enter ast.source facts) (leave facts) es l = (.ok (), l'))
    (hempty : l.frames = .empty) (hp : p ∈ ast.places root) (hnot : .leave p ∉ es)
    (hn : p.node? = some n) : l'.frames.fetch n.id = none := by
  have hne : ∀ q, .leave q ∈ es → ∀ m, q.node? = some m → m.kind.naming = .frame →
      n.id.index ≠ m.id.index := by
    intro q hq m hm _
    have hmem : q ∈ ast.places root :=
      mem_places_of_event (.inr (hes ▸ List.mem_append_left _ hq))
    exact index_ne hi hp hmem (fun heq => hnot (heq ▸ hq)) hn hm
  have hplace := place?_frames_through ast.source facts hne l
  rw [hrun, hempty] at hplace
  exact (SideTable.fetch_congr hplace).trans (SideTable.fetch_empty n.id)

/-- A function that has been left is numbered, whatever comes behind it. -/
theorem numbered_of_left (h : Pooled ast root facts l.pools poolOf) (hi : ast.Intact root)
    (hes : ast.events root = es ++ es')
    (hrun : Walk.through (enter ast.source facts) (leave facts) es l = (.ok (), l'))
    (hslots : l.slots = .empty) (hframes : l.frames = .empty) (hf : f ∈ ast.places root)
    (hfun : IsFunction f) (hleft : .leave f ∈ es) :
    Numbered ast root (l'.state facts []).facts f := by
  refine .of_slotAt? h hf hfun (fun before p after n hsplit hn hs => ?_) fun n hn => ?_
  · have hp : p ∈ ast.places root := hsplit ▸ List.mem_append_right _ List.mem_cons_self
    have hnot : p ∉ es'.filterMap Event.entered? := fun hmem =>
      entered_of_left hes hleft hp hs (Event.mem_entered.mp hmem)
    obtain ⟨after', hentered⟩ := exists_split_of_prefix (places_eq_append hes) hsplit hnot
    have hnew : ¬ l.slots.Outdates n.id := hslots ▸ SideTable.not_outdates_empty n.id
    have hfetch := fetch_slot_of_prefix h hi hes hrun hentered hn hnew
    rwa [hslots, SideTable.fetch_empty, Option.or_none] at hfetch
  · obtain ⟨m, hm, hnaming⟩ := hfun
    obtain rfl := Option.some.inj (hn.symm.trans hm)
    exact fetch_frame_of_prefix h hi hes hrun hleft hn hnaming
      (hframes ▸ SideTable.not_outdates_empty n.id)

/-- What is left behind when a run stops at a place. -/
theorem halted_of_overflows (h : Pooled ast root facts l.pools poolOf) (hi : ast.Intact root)
    (hes : ast.events root = es ++ .enter p :: es')
    (hrun : Walk.through (enter ast.source facts) (leave facts) es l = (.ok (), l'))
    (hslots : l.slots = .empty) (hframes : l.frames = .empty) (hn : p.node? = some n)
    (hover : Overflows (es.filterMap Event.entered?) p scope name) :
    Halted ast root (es.filterMap Event.entered?) p n scope (l'.state facts []) := by
  have hp : p ∈ ast.places root :=
    mem_places_of_event (.inl (hes ▸ List.mem_append_right _ List.mem_cons_self))
  have hnew : .enter p ∉ es := fun hmem =>
    List.lt_irrefl p.path (precedes_of_split hes _ hmem _ List.mem_cons_self)
  refine ⟨fetch_slot_of_not_entered hi hes hrun hslots hp hnew hn,
    fun f hf m hm hpath =>
      fetch_frame_of_not_left hi hes hrun hframes hf (not_left hes hf hpath) hm,
    fun f hf hfun hlt hnot => ?_, ?_⟩
  · obtain ⟨m, hm, -⟩ := id hfun
    exact numbered_of_left h hi hes hrun hslots hframes hf hfun
      (left_of_lt hes hf (by rw [hm]; rfl) hlt hnot)
  · obtain ⟨htally, hsame⟩ := tally_of_prefix h hi hes hrun
    obtain ⟨hpool, hreg⟩ := h.pool_of_node hsame hp hn
    obtain ⟨q, hq⟩ := Option.isSome_iff_exists.mp hreg
    obtain ⟨top, htop, hopens, hs, heq⟩ := h.nearest p hp
    obtain rfl := Option.some.inj (hover.scope?_eq.symm.trans hs)
    have hsub : es.filterMap Event.entered? ⊆ ast.places root := by
      rw [places_eq_append hes]
      exact List.subset_append_left _ _
    have hlists := htally.lists _ q hq
    rw [heq, namesIn_eq_namesOf h hsub htop hopens] at hlists
    exact ⟨poolOf p.path, q, hpool, hq, hlists.size_eq.trans hover.full,
      fun _ _ => hlists.lookup_eq_some_iff (nodup_namesOf _ _)⟩

/-- A run over a tree goes on to the end or stops at the first declaration that overflows. -/
theorem through_overflows (h : Pooled ast root facts l.pools poolOf) (hi : ast.Intact root) :
    (∃ l', Walk.through (enter ast.source facts) (leave facts) (ast.events root) l =
      (.ok (), l')) ∨
    ∃ es p es' l' n scope name, ast.events root = es ++ .enter p :: es' ∧
      Walk.through (enter ast.source facts) (leave facts) es l = (.ok (), l') ∧
      p.node? = some n ∧ Overflows (es.filterMap Event.entered?) p scope name ∧
      (∀ before q after scope' name', es.filterMap Event.entered? = before ++ q :: after →
        ¬ Overflows before q scope' name') ∧
      Walk.through (enter ast.source facts) (leave facts) (ast.events root) l =
        (.error { defect := .tooManyLocals name, loc := n.loc }, l') := by
  rcases through_ends ast.source h.tally (fun p hp => h.ready_of_event hi hp) with
    ⟨l', hrun, -⟩ |
      ⟨es, p, es', l', hes, hrun, htally, hsame, n, pool, name, hn, hpool, -, hname, hlong, hstop⟩
  · exact .inl ⟨l', hrun⟩
  · rw [List.nil_append] at htally hlong
    have hplaces : ast.places root =
        es.filterMap Event.entered? ++ p :: es'.filterMap Event.entered? := places_eq_append hes
    have hp : p ∈ ast.places root := hplaces ▸ List.mem_append_right _ List.mem_cons_self
    obtain ⟨top, htop, hopens, hs, heq⟩ := h.nearest p hp
    obtain ⟨hpool', -⟩ := h.pool_of_node hsame hp hn
    obtain rfl := Option.some.inj (hpool.symm.trans (hpool'.trans (congrArg some heq)))
    -- the pool of the place lists the names of its scope
    have hbefore : es.filterMap Event.entered? ⊆ ast.places root := by
      rw [hplaces]
      exact List.subset_append_left _ _
    obtain ⟨q, hq⟩ := Option.isSome_iff_exists.mp
      ((hsame (poolOf top.path)).trans (h.registered top htop))
    have hfits := htally.fits _ q hq
    rw [namesIn_eq_namesOf h hbefore htop hopens] at hfits
    rw [namesIn_eq_namesOf h (List.append_subset.mpr ⟨hbefore, List.cons_subset.mpr
      ⟨hp, List.nil_subset _⟩⟩) htop hopens] at hlong
    refine .inr ⟨es, p, es', l', n, top.path, name, hes, hrun, hn,
      overflows_of_lt hplaces hs hname hfits hlong, fun before q after _ _ hsplit hover => ?_,
      hstop⟩
    rw [hsplit] at htally hplaces
    exact hover.false_of_tally h hsame htally hplaces

end

/--
Resolving an intact unit from nothing succeeds. Numbering it then succeeds exactly if there is room;
else it stops at the first declaration that overflows its scope.
-/
theorem traverse_overflows {classes : List NodeId} (h : ast.Intact root)
    (hn : ast.get? root = some n) (hk : n.kind = .compUnit classes) :
    ∃ r, Resolve.traverse ast root { facts := .empty, pools := .empty } = (.ok (), r) ∧
      ((traverse ast root { facts := r.facts, pools := r.pools }).1 = .ok () ↔ ast.HasRoom root) ∧
      (¬ ast.HasRoom root → ∃ before p after m scope name s,
        ast.places root = before ++ p :: after ∧ p.node? = some m ∧
        Overflows before p scope name ∧
        (∀ before' q after' scope' name', before = before' ++ q :: after' →
          ¬ Overflows before' q scope' name') ∧
        traverse ast root { facts := r.facts, pools := r.pools } =
          (.error { defect := .tooManyLocals name, loc := m.loc }, s) ∧
        Halted ast root before p m scope s) := by
  have hopens : n.kind.opensScope = true := by rw [hk]; rfl
  have ho := h.acyclic.unfolds_outline
  obtain ⟨r, poolOf, hresolve, hpooled, hslots, hframes⟩ := exists_pooled h hn hopens
  have hpooled : Pooled ast root r.facts
      (⟨r.facts.slots, r.facts.frames, r.pools⟩ : Ledger).pools poolOf := hpooled
  refine ⟨r, hresolve, ⟨fun hok => ?_, fun hroom => ?_⟩, fun hfull => ?_⟩
  · cases hrun : traverse ast root { facts := r.facts, pools := r.pools } with
    | mk result s =>
      rw [hrun] at hok
      obtain rfl : result = .ok () := hok
      obtain ⟨l, hthrough, -⟩ := exists_ledger ho hrun
      exact hasRoom_of_through hpooled h hthrough
  · obtain ⟨l, hrun⟩ := exists_through_of_room hpooled h hroom
    rw [traverse_eq ho, Walk.onPart, hrun]
  · rcases through_overflows hpooled h with
      ⟨l, hrun⟩ | ⟨es, p, es', l, m, scope, name, hes, hrun, hm, hover, hfirst, hstop⟩
    · exact absurd (hasRoom_of_through hpooled h hrun) hfull
    · refine ⟨es.filterMap Event.entered?, p, es'.filterMap Event.entered?, m, scope, name,
        l.state r.facts [], places_eq_append hes, hm, hover, hfirst, ?_,
        halted_of_overflows hpooled h hes hrun hslots hframes hm hover⟩
      rw [traverse_eq ho, Walk.onPart, hstop]

/-! ### A unit with too many names -/

/-- Declarations of these names can be made in any arena. -/
theorem exists_declarations (names : List String) {a : Ast} (ha : a.nodes.free = []) :
    ∃ b os, a.Adds b os ∧ (∀ n ∈ os.flatMap Outline.nodes, n.kind ≠ .error) ∧
      ∀ name ∈ names, ∃ n children ty, .node n children ∈ os ∧ n.kind = .declaration ty name := by
  induction names generalizing a with
  | nil => exact ⟨a, [], .refl ha, by simp, by simp⟩
  | cons name names ih =>
    have hty := (Ast.Adds.refl ha).node (show (NodeKind.type .int).children = _ from rfl) ⟨0, 0, 0⟩
    have hdecl := hty.node (show (NodeKind.declaration (a.add (.type .int) ⟨0, 0, 0⟩).1
      name).children = _ from rfl) ⟨0, 0, 0⟩
    obtain ⟨b, os, hadds, hread, hnames⟩ := ih hdecl.full
    refine ⟨b, _, hdecl.trans hadds, ?_, List.forall_mem_cons.mpr ⟨?_, fun other ho => ?_⟩⟩
    · rw [List.flatMap_append]
      exact List.forall_mem_append.mpr ⟨by simp, hread⟩
    · exact ⟨_, _, _, List.mem_append_left _ (List.mem_singleton_self _), rfl⟩
    · obtain ⟨n, children, ty, hmem, hkind⟩ := hnames other ho
      exact ⟨n, children, ty, List.mem_append_right _ hmem, hkind⟩

/-- So a unit can declare any names. -/
theorem exists_unit (names : List String) : ∃ (ast : Ast) (root : NodeId) (n : Node)
    (classes : List NodeId), ast.Intact root ∧ ast.get? root = some n ∧ n.kind = .compUnit classes ∧
      ∀ name ∈ names, name ∈ ast.reserved root [] := by
  obtain ⟨b, os, hadds, hread, hnames⟩ := exists_declarations names (a := .empty 0) rfl
  have hunit := hadds.node (show (NodeKind.compUnit (os.map Outline.id)).children = _ from rfl)
    ⟨0, 0, 0⟩
  have hshows := hunit.shows _ List.mem_cons_self
  have hnodup := hunit.ids.nodup_iff.mp (Arena.keys_nodup _)
  rw [List.flatMap_singleton] at hnodup
  have hnodup := (List.nodup_append'.mp hnodup).2.1
  have hintact := hshows.intact hnodup (by
    rw [Outline.nodes_node]
    exact List.forall_mem_cons.mpr ⟨by simp, hread⟩)
  obtain ⟨hget, -, -⟩ := id hshows
  refine ⟨_, _, _, _, hintact, hget, rfl, fun name hname => ?_⟩
  obtain ⟨n, children, ty, hmem, hkind⟩ := hnames name hname
  obtain ⟨i, hi⟩ := List.getElem?_of_mem hmem
  unfold Ast.reserved Ast.places
  rw [List.mem_eraseDups, List.mem_filterMap, hshows.outline_eq hnodup, Outline.places_node]
  refine ⟨⟨[0 + i], _, n.id, some n⟩, List.mem_cons_of_mem _
    (Outline.mem_placesOfAll.mpr ⟨i, _, hi, List.mem_cons_self⟩), ?_⟩
  unfold Place.reservedIn? Place.reserved?
  rw [if_pos]
  · show n.kind.naming.reserved? = _
    rw [hkind]
    rfl
  · rw [Place.scope?_of_inner rfl (by rw [hkind]; rfl)]
    rfl

/-- A unit that declares one name more than it has slots. -/
theorem traverse_overflows_unit : ∃ (ast : Ast) (root : NodeId) (n : Node)
    (classes : List NodeId), ast.Intact root ∧ ast.get? root = some n ∧ n.kind = .compUnit classes ∧
    ¬ ast.HasRoom root ∧
    ∃ r, Resolve.traverse ast root { facts := .empty, pools := .empty } = (.ok (), r) ∧
      ∃ before p after m scope name s, ast.places root = before ++ p :: after ∧
        p.node? = some m ∧ Overflows before p scope name ∧
        traverse ast root { facts := r.facts, pools := r.pools } =
          (.error { defect := .tooManyLocals name, loc := m.loc }, s) ∧
        Halted ast root before p m scope s := by
  let names := (List.range (maxSlots + 1)).map fun i => String.ofList (List.replicate i 'a')
  have hnodup : names.Nodup := List.nodup_range.map fun i j heq => by
    have hlength := congrArg String.length heq
    simpa using hlength
  obtain ⟨ast, root, n, classes, hintact, hn, hk, hnames⟩ := exists_unit names
  have hfull : ¬ ast.HasRoom root := by
    intro hroom
    obtain ⟨children, hout⟩ := Ast.exists_outline_eq_node hn
    have htop : ⟨[], [], n.id, some n⟩ ∈ ast.places root := by
      unfold Ast.places
      rw [hout, Outline.places_node]
      exact List.mem_cons_self
    have hfits := hroom _ htop (show n.kind.opensScope = true by rw [hk]; rfl)
    have hle := (hnodup.subperm hnames).length_le
    rw [List.length_map, List.length_range] at hle
    exact absurd (Nat.le_trans hle hfits) (Nat.not_succ_le_self maxSlots)
  obtain ⟨r, hresolve, -, hstop⟩ := traverse_overflows hintact hn hk
  obtain ⟨before, p, after, m, scope, name, s, hsplit, hm, hover, -, hrun, hhalted⟩ := hstop hfull
  exact ⟨ast, root, n, classes, hintact, hn, hk, hfull, r, hresolve, before, p, after, m, scope,
    name, s, hsplit, hm, hover, hrun, hhalted⟩

end FlatScope.Slots
