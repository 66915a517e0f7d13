import FlatScope.Proofs.Frames

/-!
# Room for locals

A scope has room if it does not reserve more names than a frame has slots. Numbering a resolved tree
succeeds exactly if all its scopes have room (`Slots.exists_resolved`).
-/

namespace FlatScope

/-- The names reserved in the scope at a path, each once. -/
def Ast.reserved (ast : Ast) (root : NodeId) (scope : List Nat) : List String :=
  ((ast.places root).filterMap (Place.reservedIn? scope)).eraseDups

/-- Every scope has slots for its names. -/
def Ast.HasRoom (ast : Ast) (root : NodeId) : Prop :=
  ∀ p ∈ ast.places root, p.opens = true → (ast.reserved root p.path).length ≤ maxSlots

namespace Slots

variable {ast : Ast} {root : NodeId} {facts : Annotations} {pools : Pools}
  {poolOf : List Nat → PoolId} {p f : Place} {n : Node}

theorem namesIn_eq_reserved (h : Pooled ast root facts pools poolOf) (hp : p ∈ ast.places root)
    (hopens : p.opens = true) :
    namesIn facts (fun _ => []) (ast.places root) (poolOf p.path) = ast.reserved root p.path := by
  unfold namesIn
  rw [reservedIn_eq_filterMap h (List.Subset.refl _) hp hopens, List.nil_append]
  rfl

/-- The names reserved in a function are its locals. -/
theorem reserved_eq_locals (hf : f ∈ ast.places root) (hfun : IsFunction f) :
    ast.reserved root f.path = ast.locals root f.path := by
  unfold Ast.reserved Ast.locals
  rw [filterMap_reservedIn (List.append_nil _).symm hf hfun]

/-- The names reserved in a unit are those declared in it. -/
theorem reserved_eq_declared (hp : p ∈ ast.places root) (hn : p.node? = some n)
    (hframe : n.kind.naming ≠ .frame) : ast.reserved root p.path =
      ((ast.places root).filterMap (Place.declaredIn? p.path)).eraseDups := by
  refine congrArg List.eraseDups (List.filterMap_congr fun q hq => ?_)
  unfold Place.reservedIn? Place.declaredIn?
  split
  · next hs =>
    refine Place.reserved?_eq fun m hm hnaming => hframe ?_
    have hself : IsFunction q := ⟨m, hm, hnaming⟩
    obtain rfl := Ast.eq_of_path_eq hq hp (Option.some.inj (hself.scope?.symm.trans hs))
    obtain rfl := Option.some.inj (hn.symm.trans hm)
    exact hnaming
  · rfl

section

variable {l : Ledger}

/-- A run over a tree succeeds if there is room. -/
theorem exists_through_of_room (h : Pooled ast root facts l.pools poolOf) (hi : ast.Intact root)
    (hroom : ast.HasRoom root) :
    ∃ l', Walk.through (enter ast.source facts) (leave facts) (ast.events root) l =
      (.ok (), l') := by
  rcases through_cases ast.source h.tally (fun p hp => h.ready_of_event hi hp) with
    ⟨l', hrun, -⟩ | ⟨-, pool, hreg, hfull⟩
  · exact ⟨l', hrun⟩
  · obtain ⟨q, hq⟩ := Option.isSome_iff_exists.mp hreg
    obtain ⟨p, hp, hopens, rfl⟩ := h.opened pool q hq
    rw [List.nil_append] at hfull
    have hnames := congrArg List.length (namesIn_eq_reserved h hp hopens)
    exact absurd (hnames ▸ hroom p hp hopens) (Nat.not_le.mpr hfull)

/-- There is room if a run over a tree succeeds. -/
theorem hasRoom_of_through (h : Pooled ast root facts l.pools poolOf) (hi : ast.Intact root)
    {l' : Ledger} (hrun : Walk.through (enter ast.source facts) (leave facts) (ast.events root) l =
      (.ok (), l')) : ast.HasRoom root := by
  intro p hp hopens
  obtain ⟨htally, hsame⟩ := tally_of_prefix h hi (List.append_nil _).symm hrun
  obtain ⟨q, hq⟩ := Option.isSome_iff_exists.mp ((hsame (poolOf p.path)).trans (h.registered p hp))
  have hfits := htally.fits _ q hq
  rwa [show (ast.events root).filterMap Event.entered? = ast.places root from rfl,
    namesIn_eq_reserved h hp hopens] at hfits

end

/--
Resolving an intact tree from nothing succeeds. Numbering it then succeeds exactly if there is room,
and attaches the number of their locals to the functions.
-/
theorem exists_resolved (h : ast.Intact root) (hn : ast.get? root = some n)
    (hopens : n.kind.opensScope = true) :
    ∃ r, Resolve.traverse ast root { facts := .empty, pools := .empty } = (.ok (), r) ∧
      (ast.HasRoom root →
        ∃ s, traverse ast root { facts := r.facts, pools := r.pools } = (.ok (), s) ∧
          ∀ f ∈ ast.places root, ∀ m, f.node? = some m → m.kind.naming = .frame →
            s.facts.fetch .frame m.id = some (ast.locals root f.path).length) ∧
      (¬ ast.HasRoom root →
        ∃ d s, traverse ast root { facts := r.facts, pools := r.pools } = (.error d, s)) := by
  have ho := h.acyclic.unfolds_outline
  obtain ⟨r, poolOf, hresolve, hpooled, -, hframes⟩ := exists_pooled h hn hopens
  refine ⟨r, hresolve, fun hroom => ?_, fun hfull => ?_⟩
  · obtain ⟨l, hrun⟩ := exists_through_of_room
      (l := ⟨r.facts.slots, r.facts.frames, r.pools⟩) hpooled h hroom
    refine ⟨l.state r.facts [], ?_, fun f hf m hm hframe => ?_⟩
    · rw [traverse_eq ho, Walk.onPart, hrun]
    · have hnew : ¬ r.facts.frames.Outdates m.id := by
        rw [hframes]
        exact SideTable.not_outdates_empty m.id
      exact fetch_frame (l := ⟨r.facts.slots, r.facts.frames, r.pools⟩) hpooled h hrun hf hm
        hframe hnew
  · cases hrun : traverse ast root { facts := r.facts, pools := r.pools } with
    | mk result s =>
      cases result with
      | error d => exact ⟨d, s, rfl⟩
      | ok =>
        obtain ⟨l, hthrough, -⟩ := exists_ledger ho hrun
        exact absurd (hasRoom_of_through (l := ⟨r.facts.slots, r.facts.frames, r.pools⟩)
          hpooled h hthrough) hfull

end Slots

end FlatScope
