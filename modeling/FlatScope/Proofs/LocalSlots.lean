import FlatScope.Proofs.Frames

/-!
# Slots of locals

Numbering a resolved tree gives the nodes of every function the positions of their names among its
locals (`Numbered`), whatever else is nested in it: a scope inside a function numbers its own names.
-/

namespace FlatScope.Slots

variable {ast : Ast} {root : NodeId} {facts : Annotations} {pools : Pools}
  {poolOf : List Nat → PoolId} {before after : List Place} {p f : Place} {n : Node} {name : String}

/-- What is attached to a function and to the nodes whose nearest scope it is. -/
structure Numbered (ast : Ast) (root : NodeId) (facts : Annotations) (f : Place) : Prop where
  declared : ∀ p ∈ ast.places root, ∀ n name, p.node? = some n → n.kind.naming = .declares name →
    p.scope? = some f.path →
      facts.fetch .slot n.id = some ((ast.locals root f.path).idxOf name)
  /-- a name is read if it is `this` or declared earlier in the function; in types no name is -/
  read : ∀ before p after n name, ast.places root = before ++ p :: after → p.node? = some n →
    n.kind.naming = .reads name → p.above.any Spot.isType = false → p.scope? = some f.path →
      facts.fetch .slot n.id =
        if name = "this" ∨ name ∈ before.filterMap (Place.declaredIn? f.path) then
          some ((ast.locals root f.path).idxOf name)
        else none
  other : ∀ p ∈ ast.places root, ∀ n, p.node? = some n → p.scope? = some f.path →
    (∀ name, n.kind.naming ≠ .declares name) →
      (∀ name, n.kind.naming = .reads name → p.above.any Spot.isType = true) →
        facts.fetch .slot n.id = none
  frame : ∀ n, f.node? = some n →
    facts.fetch .frame n.id = some (ast.locals root f.path).length

/-- A place is in the pool of its nearest scope. -/
theorem Pooled.poolOf_eq (h : Pooled ast root facts pools poolOf) (hp : p ∈ ast.places root)
    (hs : p.scope? = some f.path) : poolOf p.path = poolOf f.path := by
  obtain ⟨q, -, -, hscope, hpool⟩ := h.nearest p hp
  rw [hpool, Option.some.inj (hscope.symm.trans hs)]

/-- The names known at some place have the positions that they have in the end. -/
theorem idxOf_namesIn (h : Pooled ast root facts pools poolOf) (hf : f ∈ ast.places root)
    (hfun : IsFunction f) {ps rest : List Place} (hps : ast.places root = ps ++ rest)
    (hm : name ∈ namesIn facts (fun _ => []) ps (poolOf f.path)) :
    (namesIn facts (fun _ => []) ps (poolOf f.path)).idxOf name =
      (ast.locals root f.path).idxOf name := by
  have hall : namesIn facts (fun _ => []) (ast.places root) (poolOf f.path) =
      ast.locals root f.path := namesIn_eq h (List.append_nil _).symm hf hfun
  obtain ⟨later, hlater⟩ := namesIn_prefix_append facts (fun _ => []) ps rest (poolOf f.path)
  rw [← hps, hall] at hlater
  rw [← hlater, List.idxOf_append_of_mem hm]

theorem slotAt?_of_declares (h : Pooled ast root facts pools poolOf) (hf : f ∈ ast.places root)
    (hfun : IsFunction f) (hsplit : ast.places root = before ++ p :: after)
    (hn : p.node? = some n) (hnaming : n.kind.naming = .declares name)
    (hs : p.scope? = some f.path) :
    slotAt? facts (fun _ => []) before p n (poolOf p.path) =
      some ((ast.locals root f.path).idxOf name) := by
  have hp : p ∈ ast.places root := hsplit ▸ List.mem_append_right _ List.mem_cons_self
  have hpool : p.pool? facts = some (poolOf f.path) := by
    rw [h.pool?_eq p hp, h.poolOf_eq hp hs]
  have hname : p.reserved? = some name := by
    unfold Place.reserved?
    rw [hn, Option.bind_some, hnaming]
    rfl
  have hmem : name ∈ namesIn facts (fun _ => []) (before ++ [p]) (poolOf f.path) := by
    unfold namesIn
    rw [List.mem_eraseDups, reservedIn_append, reservedIn_singleton hpool hname]
    simp
  unfold slotAt?
  rw [hnaming, h.poolOf_eq hp hs]
  have hps : ast.places root = (before ++ [p]) ++ after := by rw [hsplit, List.append_cons]
  exact congrArg some (idxOf_namesIn h hf hfun hps hmem)

theorem slotAt?_of_reads (h : Pooled ast root facts pools poolOf) (hf : f ∈ ast.places root)
    (hfun : IsFunction f) (hsplit : ast.places root = before ++ p :: after)
    (hn : p.node? = some n) (hnaming : n.kind.naming = .reads name)
    (htype : p.above.any Spot.isType = false) (hs : p.scope? = some f.path) :
    slotAt? facts (fun _ => []) before p n (poolOf p.path) =
      if name = "this" ∨ name ∈ before.filterMap (Place.declaredIn? f.path) then
        some ((ast.locals root f.path).idxOf name)
      else none := by
  have hp : p ∈ ast.places root := hsplit ▸ List.mem_append_right _ List.mem_cons_self
  have hf₁ : f ∈ before := by
    rw [hsplit] at hf
    rcases List.mem_append.mp hf with hf | hf
    · exact hf
    · rcases List.mem_cons.mp hf with rfl | hf
      · obtain ⟨m, hm, hframe⟩ := hfun
        obtain rfl := Option.some.inj (hn.symm.trans hm)
        cases hnaming.symm.trans hframe
      · have hsorted := Ast.pairwise_of_prefix (hsplit.trans (List.append_nil _).symm)
        have hlater := (List.pairwise_append.mp hsorted).2.1
        exact absurd hs (scope?_ne_of_lt hp ((List.pairwise_cons.mp hlater).1 f hf))
  have hnames := namesIn_eq h hsplit hf₁ hfun
  have hmem : name ∈ namesIn facts (fun _ => []) before (poolOf f.path) ↔
      name = "this" ∨ name ∈ before.filterMap (Place.declaredIn? f.path) := by
    rw [hnames, List.mem_eraseDups, List.mem_cons]
  unfold slotAt?
  rw [hnaming, h.poolOf_eq hp hs]
  simp only [htype, hmem, Bool.false_eq_true, if_false]
  split
  · next hm => exact congrArg some (idxOf_namesIn h hf hfun hsplit (hmem.mpr hm))
  · rfl

theorem slotAt?_of_other (hnaming : ∀ name, n.kind.naming ≠ .declares name)
    (hread : ∀ name, n.kind.naming = .reads name → p.above.any Spot.isType = true)
    (pool : PoolId) : slotAt? facts (fun _ => []) before p n pool = none := by
  unfold slotAt?
  split
  · next name heq => exact absurd heq (hnaming name)
  · next name heq => exact if_pos (hread name heq)
  · rfl

/--
Resolving an intact unit from nothing succeeds; numbering it then either fails or attaches just the
slots of the locals of every function, and the sizes of the frames.
-/
theorem traverse_numbers {classes : List NodeId} (h : ast.Intact root)
    (hn : ast.get? root = some n) (hk : n.kind = .compUnit classes) :
    ∃ r, Resolve.traverse ast root { facts := .empty, pools := .empty } = (.ok (), r) ∧
      ∀ s, traverse ast root { facts := r.facts, pools := r.pools } = (.ok (), s) →
        (∀ f ∈ ast.places root, IsFunction f → Numbered ast root s.facts f) ∧
          ∀ id m size, ast.get? id = some m → s.facts.fetch .frame id = some size →
            m.kind.naming = .frame := by
  have hopens : n.kind.opensScope = true := by rw [hk]; rfl
  have ho := h.acyclic.unfolds_outline
  obtain ⟨r, poolOf, hresolve, hpooled, hslots, hframes⟩ := exists_pooled h hn hopens
  refine ⟨r, hresolve, fun s hs => ?_⟩
  obtain ⟨l, hrun, rfl⟩ := exists_ledger ho hs
  rw [hslots, hframes] at hrun
  have hslot : ∀ before p after n, ast.places root = before ++ p :: after → p.node? = some n →
      (l.state r.facts []).facts.fetch .slot n.id =
        slotAt? r.facts (fun _ => []) before p n (poolOf p.path) := by
    intro before p after n hsplit hn
    have hfetch := fetch_slot (l := ⟨.empty, .empty, r.pools⟩) hpooled h hrun hsplit hn
      (SideTable.not_outdates_empty n.id)
    rwa [SideTable.fetch_empty, Option.or_none] at hfetch
  refine ⟨fun f hf hfun => ⟨fun p hp n name hn hnaming hs => ?_,
    fun before p after n name hsplit hn hnaming htype hs => ?_,
    fun p hp n hn hs hnaming hread => ?_, fun n hn => ?_⟩, fun id m size hm hsize => ?_⟩
  · obtain ⟨before, after, hsplit⟩ := List.append_of_mem hp
    rw [hslot before p after n hsplit hn]
    exact slotAt?_of_declares hpooled hf hfun hsplit hn hnaming hs
  · rw [hslot before p after n hsplit hn]
    exact slotAt?_of_reads hpooled hf hfun hsplit hn hnaming htype hs
  · obtain ⟨before, after, hsplit⟩ := List.append_of_mem hp
    rw [hslot before p after n hsplit hn]
    exact slotAt?_of_other hnaming hread _
  · obtain ⟨m, hm, hframe⟩ := hfun
    obtain rfl := Option.some.inj (hn.symm.trans hm)
    exact fetch_frame (l := ⟨.empty, .empty, r.pools⟩) hpooled h hrun hf hn hframe
      (SideTable.not_outdates_empty n.id)
  · exact naming_of_fetch_frame ho hrun rfl hm hsize

/-- A function that declares one name. -/
theorem traverse_numbers_declaration :
    ∃ (ast : Ast) (root : NodeId) (r : Resolve.State) (s : State), ast.Intact root ∧
      Resolve.traverse ast root { facts := .empty, pools := .empty } = (.ok (), r) ∧
      traverse ast root { facts := r.facts, pools := r.pools } = (.ok (), s) ∧
      s.facts.fetch .slot (.at 4 1) = some 1 ∧
      (∀ f ∈ ast.places root, IsFunction f → Numbered ast root s.facts f) ∧
        ∀ id m size, ast.get? id = some m → s.facts.fetch .frame id = some size →
          m.kind.naming = .frame := by
  let ast := ((((((Ast.empty 0).add (.type .void) ⟨0, 0, 4⟩).2.add (.params []) ⟨0, 6, 8⟩).2.add
    (.type .int) ⟨0, 11, 14⟩).2.add (.declaration (.at 3 1) "x") ⟨0, 11, 17⟩).2.add
    (.function (.at 1 1) "f" (.at 2 1) (.at 4 1)) ⟨0, 0, 19⟩).2.add (.compUnit [.at 5 1])
    ⟨0, 0, 19⟩ |>.2
  have hacyclic : ast.Acyclic (.at 6 1) :=
    (((((((Ast.rising_empty 0).add (by decide)).add (by decide)).add (by decide)).add
      (by decide)).add (by decide)).add (by decide)).acyclic _
  have hintact := hacyclic.intact (by decide +kernel) (by decide +kernel)
  obtain ⟨r, hresolve, hnumbers⟩ := traverse_numbers hintact rfl rfl
  have hr : _ = r := congrArg Prod.snd hresolve
  have hok : (traverse ast (.at 6 1) { facts := r.facts, pools := r.pools }).1 = .ok () := by
    rw [← hr]
    decide +kernel
  have hslot : ((traverse ast (.at 6 1) { facts := r.facts, pools := r.pools }).2.facts.fetch .slot
      (.at 4 1) : Option Nat) = some 1 := by
    rw [← hr]
    decide +kernel
  cases hrun : traverse ast (.at 6 1) { facts := r.facts, pools := r.pools } with
  | mk result s =>
    rw [hrun] at hok hslot
    obtain rfl : result = .ok () := hok
    exact ⟨ast, .at 6 1, r, s, hintact, hresolve, hrun, hslot, hnumbers s hrun⟩

/-! ## Units inside functions -/

/-- The path to the nearest function of a place, past any other scopes. -/
def function? (p : Place) : Option (List Nat) :=
  (p.spots.find? (·.node.kind.naming = .frame)).map (·.path)

/-- A name declared in a unit inside a function is numbered in the unit, not in the function. -/
theorem not_forall_declared : ¬ ∀ (ast : Ast) (root : NodeId) (n : Node) (classes : List NodeId),
    ast.Intact root → ast.get? root = some n → n.kind = .compUnit classes → ∀ r s,
      Resolve.traverse ast root { facts := .empty, pools := .empty } = (.ok (), r) →
      traverse ast root { facts := r.facts, pools := r.pools } = (.ok (), s) →
      ∀ f ∈ ast.places root, IsFunction f → ∀ p ∈ ast.places root, ∀ m name, p.node? = some m →
        m.kind.naming = .declares name → function? p = some f.path →
          s.facts.fetch .slot m.id = some (List.idxOf name ("this" ::
            (ast.places root).filterMap fun q =>
              if function? q = some f.path then q.declared? else none).eraseDups) := by
  intro h
  let x : Node := ⟨.at 4 1, .declaration (.at 3 1) "x", ⟨0, 0, 0⟩⟩
  let inner : Node := ⟨.at 5 1, .compUnit [.at 4 1], ⟨0, 0, 0⟩⟩
  let f : Node := ⟨.at 6 1, .function (.at 1 1) "f" (.at 2 1) (.at 5 1), ⟨0, 0, 0⟩⟩
  let unit : Node := ⟨.at 7 1, .compUnit [.at 6 1], ⟨0, 0, 0⟩⟩
  let ast := (((((((Ast.empty 0).add (.type .void) ⟨0, 0, 0⟩).2.add (.params []) ⟨0, 0, 0⟩).2.add
    (.type .int) ⟨0, 0, 0⟩).2.add x.kind x.loc).2.add inner.kind inner.loc).2.add f.kind
    f.loc).2.add unit.kind unit.loc |>.2
  have hacyclic : ast.Acyclic (.at 7 1) :=
    ((((((((Ast.rising_empty 0).add (by decide)).add (by decide)).add (by decide)).add
      (by decide)).add (by decide)).add (by decide)).add (by decide)).acyclic _
  have hintact := hacyclic.intact (by decide +kernel) (by decide +kernel)
  cases hresolve : Resolve.traverse ast (.at 7 1) { facts := .empty, pools := .empty } with
  | mk result r =>
    have hresult : (Resolve.traverse ast (.at 7 1) { facts := .empty, pools := .empty }).1 =
        .ok () := by decide +kernel
    have hr : (Resolve.traverse ast (.at 7 1) { facts := .empty, pools := .empty }).2 = r :=
      congrArg Prod.snd hresolve
    rw [hresolve] at hresult
    obtain rfl : result = .ok () := hresult
    cases hslots : traverse ast (.at 7 1) { facts := r.facts, pools := r.pools } with
    | mk result s =>
      have hresult : (traverse ast (.at 7 1) { facts := r.facts, pools := r.pools }).1 =
          .ok () := by
        rw [← hr]
        decide +kernel
      have hslot : ((traverse ast (.at 7 1) { facts := r.facts, pools := r.pools }).2.facts.fetch
          .slot (.at 4 1) : Option Nat) = some 0 := by
        rw [← hr]
        decide +kernel
      rw [hslots] at hresult hslot
      obtain rfl : result = .ok () := hresult
      have hclaim := h ast (.at 7 1) unit [.at 6 1] hintact rfl rfl r s hresolve hslots
        ⟨[0], [⟨[], unit⟩], f.id, some f⟩ (by decide +kernel) ⟨f, rfl, rfl⟩
        ⟨[0, 2, 0], [⟨[0, 2], inner⟩, ⟨[0], f⟩, ⟨[], unit⟩], x.id, some x⟩ (by decide +kernel)
        x "x" rfl rfl (by decide +kernel)
      have hposition : List.idxOf "x" ("this" :: (ast.places (.at 7 1)).filterMap fun q =>
          if function? q = some [0] then q.declared? else none).eraseDups = 1 := by
        decide +kernel
      cases (hslot.symm.trans hclaim).trans (congrArg some hposition)

end FlatScope.Slots
