import Mathlib.Data.List.Nodup
import FlatScope.Proofs.Paths

/-!
# Places on a walk

A walk comes to every reference below its top, parents before children; a reference that occurs
twice is two `Place`s, told apart by their paths. `ast.places root` lists them in the order in which
a walk meets them. If no reference leads back to a node above it (`ast.Acyclic root`) the list has
every path exactly once (`Acyclic.mem_places_iff`), in lexicographic order (`pairwise_places`).
`Outline.events` also says when a walk is through with what is below a node.
-/

namespace FlatScope

/-- A node with the path to it. -/
structure Spot where
  path : List Nat
  node : Node
deriving DecidableEq

/--
A reference that a walk comes to, with the path to it, the nodes above it, the nearest first, and
the node that it leads to unless it dangles.
-/
structure Place where
  path : List Nat
  above : List Spot
  id : NodeId
  node? : Option Node
deriving DecidableEq

/-- The node of a place and those above it. -/
def Place.spots (p : Place) : List Spot := (p.node?.map (⟨p.path, ·⟩)).toList ++ p.above

/-- A walk comes to a place, and leaves a node when it has been to all that is below. -/
inductive Event where
  | enter (p : Place)
  | leave (p : Place)

namespace Event

def entered? : Event → Option Place
  | enter p => some p
  | leave _ => none

theorem mem_entered {es : List Event} {p : Place} : p ∈ es.filterMap entered? ↔ .enter p ∈ es := by
  rw [List.mem_filterMap]
  constructor
  · rintro ⟨e, he, hp⟩
    cases e <;> cases hp
    exact he
  · exact fun h => ⟨_, h, rfl⟩

theorem entered?_eq_some {e : Event} {p : Place} : e.entered? = some p ↔ e = .enter p := by
  cases e with
  | enter q => simp [entered?]
  | leave q => simp [entered?]

/-- Cutting the places cuts the events. -/
theorem exists_split {es : List Event} {before after : List Place} {p : Place}
    (h : es.filterMap entered? = before ++ p :: after) :
    ∃ es₁ es₂, es = es₁ ++ .enter p :: es₂ ∧ es₁.filterMap entered? = before ∧
      es₂.filterMap entered? = after := by
  obtain ⟨es₁, rest, rfl, hbefore, hrest⟩ := List.filterMap_eq_append_iff.mp h
  obtain ⟨skipped, e, es₂, rfl, hskipped, he, hafter⟩ := List.filterMap_eq_cons_iff.mp hrest
  obtain rfl := entered?_eq_some.mp he
  refine ⟨es₁ ++ skipped, es₂, (List.append_assoc ..).symm, ?_, hafter⟩
  rw [List.filterMap_append, hbefore, List.filterMap_eq_nil_iff.mpr hskipped, List.append_nil]

/--
What the order of two events says: paths grow, what is left is neither entered nor left again, and
what is entered before a node is left comes before that node or is at or below it.
-/
def Precedes : Event → Event → Prop
  | enter p, enter q => p.path < q.path
  | leave p, enter q => ¬ p.path <+: q.path
  | leave p, leave q => p.path ≠ q.path
  | enter p, leave q => p.path < q.path ∨ q.path <+: p.path

end Event

namespace Outline

variable {o : Outline} {os : List Outline} {path : List Nat} {above : List Spot} {p : Place}

mutual

def events (path : List Nat) (above : List Spot) : Outline → List Event
  | missing id => [.enter ⟨path, above, id, none⟩]
  | node n children =>
    .enter ⟨path, above, n.id, some n⟩ ::
      (eventsOfAll path (⟨path, n⟩ :: above) 0 children ++ [.leave ⟨path, above, n.id, some n⟩])

/-- The events of the children of `path` from number `i` on. -/
def eventsOfAll (path : List Nat) (above : List Spot) (i : Nat) : List Outline → List Event
  | [] => []
  | o :: os => o.events (path ++ [i]) above ++ eventsOfAll path above (i + 1) os

end

def places (path : List Nat) (above : List Spot) (o : Outline) : List Place :=
  (o.events path above).filterMap Event.entered?

def placesOfAll (path : List Nat) (above : List Spot) (i : Nat) (os : List Outline) : List Place :=
  (eventsOfAll path above i os).filterMap Event.entered?

theorem places_missing (path : List Nat) (above : List Spot) (id : NodeId) :
    (missing id).places path above = [⟨path, above, id, none⟩] := rfl

theorem places_node (path : List Nat) (above : List Spot) (n : Node) (children : List Outline) :
    (node n children).places path above =
      ⟨path, above, n.id, some n⟩ :: placesOfAll path (⟨path, n⟩ :: above) 0 children := by
  simp only [places, placesOfAll, events, List.filterMap_cons, List.filterMap_append,
    Event.entered?, List.filterMap_nil, List.append_nil]

theorem placesOfAll_cons (path : List Nat) (above : List Spot) (i : Nat) (o : Outline)
    (os : List Outline) : placesOfAll path above i (o :: os) =
      o.places (path ++ [i]) above ++ placesOfAll path above (i + 1) os := by
  simp only [places, placesOfAll, eventsOfAll, List.filterMap_append]

theorem mem_eventsOfAll {i : Nat} {e : Event} : e ∈ eventsOfAll path above i os ↔
    ∃ (j : Nat) (o : Outline), os[j]? = some o ∧ e ∈ o.events (path ++ [i + j]) above := by
  induction os generalizing i with
  | nil => simp [eventsOfAll]
  | cons o os ih =>
    rw [eventsOfAll, List.mem_append, ih]
    constructor
    · rintro (he | ⟨j, o', ho', he⟩)
      · exact ⟨0, o, rfl, he⟩
      · refine ⟨j + 1, o', ho', ?_⟩
        rwa [show i + (j + 1) = i + 1 + j by omega]
    · rintro ⟨j, o', ho', he⟩
      cases j with
      | zero =>
        obtain rfl := Option.some.inj ho'
        exact .inl he
      | succ j =>
        refine .inr ⟨j, o', ho', ?_⟩
        rwa [show i + 1 + j = i + (j + 1) by omega]

theorem mem_places : p ∈ o.places path above ↔ .enter p ∈ o.events path above :=
  Event.mem_entered

theorem mem_placesOfAll {i : Nat} : p ∈ placesOfAll path above i os ↔
    ∃ (j : Nat) (o : Outline), os[j]? = some o ∧ p ∈ o.places (path ++ [i + j]) above := by
  unfold placesOfAll
  rw [Event.mem_entered, mem_eventsOfAll]
  simp only [mem_places]

/-- Exactly the places with a node are left again. -/
theorem leave_mem_events :
    .leave p ∈ o.events path above ↔ p ∈ o.places path above ∧ p.node?.isSome := by
  induction o generalizing path above with
  | missing id =>
    rw [places_missing, List.mem_singleton]
    constructor
    · intro h
      cases List.mem_singleton.mp h
    · rintro ⟨rfl, h⟩
      cases h
  | node n children ih =>
    have below : .leave p ∈ eventsOfAll path (⟨path, n⟩ :: above) 0 children ↔
        p ∈ placesOfAll path (⟨path, n⟩ :: above) 0 children ∧ p.node?.isSome := by
      rw [mem_eventsOfAll, mem_placesOfAll]
      constructor
      · rintro ⟨j, o, ho, h⟩
        obtain ⟨hp, hn⟩ := (ih o (List.mem_of_getElem? ho)).mp h
        exact ⟨⟨j, o, ho, hp⟩, hn⟩
      · rintro ⟨⟨j, o, ho, hp⟩, hn⟩
        exact ⟨j, o, ho, (ih o (List.mem_of_getElem? ho)).mpr ⟨hp, hn⟩⟩
    rw [places_node, events, List.mem_cons, List.mem_append, List.mem_singleton, List.mem_cons,
      below]
    constructor
    · rintro (h | h | h)
      · cases h
      · exact ⟨.inr h.1, h.2⟩
      · cases h
        exact ⟨.inl rfl, rfl⟩
    · rintro ⟨rfl | h, hn⟩
      · exact .inr (.inr rfl)
      · exact .inr (.inl ⟨h, hn⟩)

/-- Forgetting the way, the places with a node are the nodes. -/
theorem filterMap_node?_places (path : List Nat) (above : List Spot) (o : Outline) :
    (o.places path above).filterMap (·.node?) = o.nodes := by
  induction o generalizing path above with
  | missing id => rfl
  | node n children ih =>
    have hall : ∀ (i : Nat) (above : List Spot),
        (placesOfAll path above i children).filterMap (·.node?) = children.flatMap nodes := by
      induction children with
      | nil => exact fun _ _ => rfl
      | cons o os ihos =>
        obtain ⟨ho, hos⟩ := List.forall_mem_cons.mp ih
        intro i above
        rw [placesOfAll_cons, List.filterMap_append, ho, ihos hos, List.flatMap_cons]
    rw [places_node, List.filterMap_cons, hall, nodes_node]

/-- The entries are the places with the number of nodes above them. -/
theorem map_places (path : List Nat) (above : List Spot) (o : Outline) :
    (o.places path above).map (fun p => (p.above.length, p.id, p.node?)) =
      o.entries above.length := by
  induction o generalizing path above with
  | missing id => rfl
  | node n children ih =>
    have hall : ∀ (i : Nat) (above : List Spot),
        (placesOfAll path above i children).map (fun p => (p.above.length, p.id, p.node?)) =
          entriesOfAll above.length children := by
      induction children with
      | nil => exact fun _ _ => rfl
      | cons o os ihos =>
        obtain ⟨ho, hos⟩ := List.forall_mem_cons.mp ih
        intro i above
        rw [placesOfAll_cons, List.map_append, ho, ihos hos, entriesOfAll]
    rw [places_node, List.map_cons, hall, entries, List.length_cons]

/-! ## The order of places -/

theorem lt_append_cons (path : List Nat) (i : Nat) (rest : List Nat) :
    path < path ++ i :: rest := by
  have h : path ++ [] < path ++ i :: rest := List.append_left_lt (List.nil_lt_cons i rest)
  rwa [List.append_nil] at h

/-- What a walk meets in a tree is below the path to that tree. -/
theorem prefix_of_mem_places (h : p ∈ o.places path above) : path <+: p.path := by
  induction o generalizing path above with
  | missing id =>
    obtain rfl := List.mem_singleton.mp h
    exact List.prefix_rfl
  | node n children ih =>
    rw [places_node] at h
    rcases List.mem_cons.mp h with rfl | h
    · exact List.prefix_rfl
    · obtain ⟨j, o, ho, hp⟩ := mem_placesOfAll.mp h
      exact (List.prefix_append _ _).trans (ih o (List.mem_of_getElem? ho) hp)

theorem exists_of_mem_placesOfAll {i : Nat} (h : p ∈ placesOfAll path above i os) :
    ∃ j rest, i ≤ j ∧ p.path = path ++ j :: rest := by
  obtain ⟨j, o, -, hp⟩ := mem_placesOfAll.mp h
  obtain ⟨rest, hrest⟩ := prefix_of_mem_places hp
  refine ⟨i + j, rest, Nat.le_add_right i j, ?_⟩
  rw [← hrest, List.append_assoc]
  rfl

/-- What is left in a child is not below another child. -/
theorem not_prefix_of_mem {i j : Nat} {rest : List Nat} {q : Place} (hij : i < j)
    (h : .leave p ∈ o.events (path ++ [i]) above) (hq : q.path = path ++ j :: rest) :
    ¬ p.path <+: q.path := by
  intro hpq
  have hi := (prefix_of_mem_places (leave_mem_events.mp h).1).trans hpq
  rw [hq, List.prefix_append_right_inj, List.cons_prefix_cons] at hi
  omega

/-- What is met in a child has a smaller path than what is below another child behind it. -/
theorem lt_of_mem {i j : Nat} {rest : List Nat} {q : Place} (hij : i < j)
    (h : p ∈ o.places (path ++ [i]) above) (hq : q.path = path ++ j :: rest) : p.path < q.path := by
  obtain ⟨rest', hp⟩ := prefix_of_mem_places h
  rw [List.append_assoc] at hp
  rw [← hp, hq]
  exact List.append_left_lt (List.cons_lt_cons_iff.mpr (.inl hij))

/-- The events in a child come before those in the children behind it. -/
theorem precedes_of_mem {i : Nat} {e e' : Event} (h : e ∈ o.events (path ++ [i]) above)
    (h' : e' ∈ eventsOfAll path above (i + 1) os) : e.Precedes e' := by
  cases e' with
  | leave q =>
    obtain ⟨j, o', ho', h'⟩ := mem_eventsOfAll.mp h'
    obtain ⟨rest, hq⟩ := prefix_of_mem_places (leave_mem_events.mp h').1
    rw [List.append_assoc] at hq
    cases e with
    | enter p => exact .inl (lt_of_mem (by omega) (mem_places.mpr h) hq.symm)
    | leave p =>
      have hnot := not_prefix_of_mem (by omega) h hq.symm
      exact fun heq => hnot (heq ▸ List.prefix_rfl)
  | enter q =>
    obtain ⟨j, rest, hij, hq⟩ := exists_of_mem_placesOfAll (Event.mem_entered.mpr h')
    have hq : q.path = path ++ j :: rest := hq
    cases e with
    | enter p => exact lt_of_mem hij (mem_places.mpr h) hq
    | leave p => exact not_prefix_of_mem hij h hq

theorem pairwise_events (path : List Nat) (above : List Spot) (o : Outline) :
    (o.events path above).Pairwise Event.Precedes := by
  induction o generalizing path above with
  | missing id => exact List.pairwise_singleton _ _
  | node n children ih =>
    have hall : ∀ (i : Nat) (above : List Spot),
        (eventsOfAll path above i children).Pairwise Event.Precedes := by
      induction children with
      | nil => exact fun _ _ => .nil
      | cons o os ihos =>
        obtain ⟨ho, hos⟩ := List.forall_mem_cons.mp ih
        intro i above
        exact List.pairwise_append.mpr
          ⟨ho _ _, ihos hos _ _, fun e he e' he' => precedes_of_mem he he'⟩
    rw [events, List.pairwise_cons, List.pairwise_append]
    refine ⟨fun e he => ?_, hall _ _, List.pairwise_singleton _ _, fun e he e' he' => ?_⟩
    · rcases List.mem_append.mp he with he | he
      · cases e with
        | leave q =>
          obtain ⟨j, o', -, he⟩ := mem_eventsOfAll.mp he
          have hpre := prefix_of_mem_places (leave_mem_events.mp he).1
          obtain ⟨rest, hq⟩ := hpre
          rw [List.append_assoc] at hq
          refine .inl ?_
          rw [← hq]
          exact lt_append_cons path _ rest
        | enter q =>
          obtain ⟨j, rest, -, hq⟩ := exists_of_mem_placesOfAll (Event.mem_entered.mpr he)
          show path < q.path
          rw [hq]
          exact lt_append_cons path j rest
      · obtain rfl := List.mem_singleton.mp he
        exact .inr List.prefix_rfl
    · obtain rfl := List.mem_singleton.mp he'
      cases e with
      | enter q =>
        obtain ⟨j, o', -, he⟩ := mem_eventsOfAll.mp he
        exact .inr ((List.prefix_append _ _).trans (prefix_of_mem_places (mem_places.mpr he)))
      | leave q =>
        obtain ⟨j, o', -, he⟩ := mem_eventsOfAll.mp he
        obtain ⟨rest, hq⟩ := prefix_of_mem_places (leave_mem_events.mp he).1
        intro heq
        have heq : q.path = path := heq
        rw [heq, List.append_assoc] at hq
        have hlen := congrArg List.length hq
        rw [List.length_append, List.singleton_append, List.length_cons] at hlen
        omega

/-- Places are met in the lexicographic order of their paths, so no path is met twice. -/
theorem pairwise_places (path : List Nat) (above : List Spot) (o : Outline) :
    (o.places path above).Pairwise fun p q => p.path < q.path := by
  unfold places
  rw [List.pairwise_filterMap]
  refine (pairwise_events path above o).imp fun {e e'} h p hp q hq => ?_
  cases e <;> cases hp
  cases e' <;> cases hq
  exact h

/-! ## What is above a place -/

/-- A node above a place is a place itself, met earlier, unless it is above the whole tree. -/
theorem mem_above {s : Spot} (h : p ∈ o.places path above) (hs : s ∈ p.above) :
    s ∈ above ∨ s.path < p.path ∧ s.path <+: p.path ∧
      ∃ q ∈ o.places path above, q.path = s.path ∧ q.node? = some s.node := by
  induction o generalizing path above with
  | missing id =>
    obtain rfl := List.mem_singleton.mp h
    exact .inl hs
  | node n children ih =>
    rw [places_node] at h
    rcases List.mem_cons.mp h with rfl | h
    · exact .inl hs
    · obtain ⟨j, o, ho, hp⟩ := mem_placesOfAll.mp h
      rcases ih o (List.mem_of_getElem? ho) hp with hmem | ⟨hlt, hpre, q, hq, heq⟩
      · rcases List.mem_cons.mp hmem with rfl | hmem
        · obtain ⟨j, rest, -, hpath⟩ := exists_of_mem_placesOfAll h
          rw [hpath]
          refine .inr ⟨lt_append_cons path j rest, List.prefix_append _ _, ?_⟩
          exact ⟨_, List.mem_cons_self, rfl, rfl⟩
        · exact .inl hmem
      · refine .inr ⟨hlt, hpre, q, ?_, heq⟩
        rw [places_node]
        exact List.mem_cons_of_mem _ (mem_placesOfAll.mpr ⟨j, o, ho, hq⟩)

/-- What is above a tree is above its places. -/
theorem subset_above (h : p ∈ o.places path above) : above ⊆ p.above := by
  induction o generalizing path above with
  | missing id =>
    obtain rfl := List.mem_singleton.mp h
    exact List.Subset.refl above
  | node n children ih =>
    rw [places_node] at h
    rcases List.mem_cons.mp h with rfl | h
    · exact List.Subset.refl above
    · obtain ⟨j, o, ho, hp⟩ := mem_placesOfAll.mp h
      exact List.Subset.trans (List.subset_cons_self _ _) (ih o (List.mem_of_getElem? ho) hp)

/-- The top is above all other places. -/
theorem eq_or_mem_above {n : Node} {children : List Outline}
    (h : p ∈ (node n children).places path above) :
    p = ⟨path, above, n.id, some n⟩ ∨ ⟨path, n⟩ ∈ p.above := by
  rw [places_node] at h
  rcases List.mem_cons.mp h with rfl | h
  · exact .inl rfl
  · obtain ⟨j, o, -, hp⟩ := mem_placesOfAll.mp h
    exact .inr (subset_above hp List.mem_cons_self)

theorem length_above (h : p ∈ o.places path above) :
    p.above.length + path.length = above.length + p.path.length := by
  induction o generalizing path above with
  | missing id =>
    obtain rfl := List.mem_singleton.mp h
    rfl
  | node n children ih =>
    rw [places_node] at h
    rcases List.mem_cons.mp h with rfl | h
    · rfl
    · obtain ⟨j, o, ho, hp⟩ := mem_placesOfAll.mp h
      have hlen := ih o (List.mem_of_getElem? ho) hp
      rw [List.length_append, List.length_singleton, List.length_cons] at hlen
      omega

end Outline

/-! ## Trees with dangling references -/

namespace Ast

variable {ast : Ast} {root id : NodeId} {o : Outline} {path : List Nat} {above : List Spot}

/-- The arena holds this tree, and what is missing in it is missing in the arena. -/
inductive Unfolds (ast : Ast) : Outline → Prop where
  | missing {id : NodeId} : ast.get? id = none → ast.Unfolds (.missing id)
  | node {n : Node} {children : List Outline} : ast.get? n.id = some n →
      n.kind.children = children.map Outline.id → (∀ o ∈ children, ast.Unfolds o) →
      ast.Unfolds (.node n children)

theorem Shows.unfolds (h : ast.Shows o) : ast.Unfolds o := by
  induction h with
  | node hn hk _ ih => exact .node hn hk ih

theorem Unfolds.node?_eq (h : ast.Unfolds o) {p : Place} (hp : p ∈ o.places path above) :
    p.node? = ast.get? p.id := by
  induction h generalizing path above with
  | missing hid =>
    obtain rfl := List.mem_singleton.mp hp
    exact hid.symm
  | node hn hk _ ih =>
    rw [Outline.places_node] at hp
    rcases List.mem_cons.mp hp with rfl | hp
    · exact hn.symm
    · obtain ⟨j, o, ho, hp⟩ := Outline.mem_placesOfAll.mp hp
      exact ih o (List.mem_of_getElem? ho) hp

theorem Unfolds.get?_of_node? (h : ast.Unfolds o) {p : Place} (hp : p ∈ o.places path above)
    {n : Node} (hn : p.node? = some n) : n.id = p.id ∧ ast.get? n.id = some n := by
  have hget := (h.node?_eq hp).symm.trans hn
  have hid := ast.id_eq p.id n hget
  exact ⟨hid, hid ▸ hget⟩

/-- The places are the ends of all paths. -/
theorem Unfolds.mem_places_iff (h : ast.Unfolds o) (path : List Nat) (above : List Spot)
    (rest : List Nat) (id : NodeId) :
    (∃ p ∈ o.places path above, p.path = path ++ rest ∧ p.id = id) ↔
      ast.at? o.id rest = some id := by
  induction h generalizing path above rest with
  | @missing x hx =>
    rw [Outline.places_missing]
    have hnil : (∃ p ∈ [(⟨path, above, x, none⟩ : Place)], p.path = path ++ rest ∧ p.id = id) ↔
        rest = [] ∧ x = id := by simp
    rw [hnil]
    cases rest with
    | nil => simp [Outline.id, at?]
    | cons i rest => simp [Outline.id, at?, children, hx]
  | @node n children hn hk hs ih =>
    rw [Outline.places_node]
    cases rest with
    | nil =>
      constructor
      · rintro ⟨p, hp, hpath, rfl⟩
        rcases List.mem_cons.mp hp with rfl | hp
        · rfl
        · obtain ⟨j, rest, -, hpath'⟩ := Outline.exists_of_mem_placesOfAll hp
          rw [hpath'] at hpath
          cases List.append_cancel_left hpath
      · intro hid
        obtain rfl := Option.some.inj hid
        exact ⟨_, List.mem_cons_self, (List.append_nil path).symm, rfl⟩
    | cons i rest =>
      have hsplit : path ++ i :: rest = (path ++ [i]) ++ rest := by simp
      constructor
      · rintro ⟨p, hp, hpath, hid⟩
        rcases List.mem_cons.mp hp with rfl | hp
        · have hlen := congrArg List.length hpath
          simp at hlen
        · obtain ⟨j, o, ho, hp⟩ := Outline.mem_placesOfAll.mp hp
          rw [Nat.zero_add] at hp
          -- the number of the child is read off the path
          obtain ⟨rest', hrest'⟩ := Outline.prefix_of_mem_places hp
          rw [hpath, List.append_assoc, List.append_cancel_left_eq] at hrest'
          obtain ⟨rfl, -⟩ := List.cons.inj hrest'
          have hc : (ast.children n.id)[j]? = some o.id := by rw [getElem?_children hn hk, ho]; rfl
          rw [Outline.id, at?_cons hc]
          exact (ih o (List.mem_of_getElem? ho) _ _ _).mp ⟨p, hp, hpath.trans hsplit, hid⟩
      · intro hat
        obtain ⟨o, ho, -, hat⟩ := exists_child_of_at? hn hk hat
        obtain ⟨p, hp, hpath, hid⟩ := (ih o (List.mem_of_getElem? ho) (path ++ [i])
          (⟨path, n⟩ :: above) rest).mpr hat
        refine ⟨p, List.mem_cons_of_mem _ (Outline.mem_placesOfAll.mpr ⟨i, o, ho, ?_⟩),
          hpath.trans hsplit.symm, hid⟩
        rwa [Nat.zero_add]

/-- What is unfolded is there. -/
theorem get?_of_mem_outlineWithin {n : Node} {depth : Nat} {id : NodeId}
    (hn : n ∈ (ast.outlineWithin depth id).nodes) : ast.get? n.id = some n := by
  induction depth generalizing id with
  | zero => cases hn
  | succ depth ih =>
    unfold outlineWithin at hn
    split at hn
    · cases hn
    · next m hm =>
      rw [Outline.nodes_node] at hn
      rcases List.mem_cons.mp hn with rfl | hn
      · exact ast.id_eq id n hm ▸ hm
      · obtain ⟨o, ho, hn⟩ := List.mem_flatMap.mp hn
        obtain ⟨child, -, rfl⟩ := List.mem_map.mp ho
        exact ih hn

/-! ## A walk from a top from which no circle is reached -/

theorem unfolds_outlineWithin {depth : Nat} (hd : ∀ path id n, ast.at? root path = some id →
    ast.get? id = some n → path.length < depth) : ast.Unfolds (ast.outlineWithin depth root) := by
  induction depth generalizing root with
  | zero =>
    cases hn : ast.get? root with
    | none => exact .missing hn
    | some n => exact absurd (hd [] root n rfl hn) (Nat.not_lt_zero _)
  | succ depth ih =>
    unfold outlineWithin
    split
    · next hn => exact .missing hn
    · next n hn =>
      have hid : n.id = root := ast.id_eq root n hn
      refine .node (hid ▸ hn) ?_ fun o ho => ?_
      · exact (map_id_outlineWithin ast depth n.kind.children).symm
      · obtain ⟨child, hmem, rfl⟩ := List.mem_map.mp ho
        obtain ⟨i, hi⟩ := List.getElem?_of_mem hmem
        have hc : (ast.children root)[i]? = some child := by rwa [children_of_get? hn]
        refine ih fun path id m hp hm => ?_
        have hlt := hd (i :: path) id m ((at?_cons hc path).trans hp) hm
        exact Nat.lt_of_succ_lt_succ hlt

/-- What is missing in the outline of such a top is missing in the arena. -/
theorem Acyclic.unfolds_outline (h : ast.Acyclic root) : ast.Unfolds (ast.outline root) :=
  unfolds_outlineWithin fun _ _ _ hp hn => h.length_lt hp hn

/-- What happens on a walk from the top on. -/
def events (ast : Ast) (root : NodeId) : List Event := (ast.outline root).events [] []

/-- What a walk meets from the top on, in order. -/
def places (ast : Ast) (root : NodeId) : List Place := (ast.outline root).places [] []

theorem mem_nodes_outline {n : Node} :
    n ∈ (ast.outline root).nodes ↔ ∃ p ∈ ast.places root, p.node? = some n := by
  unfold places
  rw [← Outline.filterMap_node?_places [] [], List.mem_filterMap]

/-- A walk meets what is at the end of a path, all of it and nothing else. -/
theorem Acyclic.mem_places_iff (h : ast.Acyclic root) {path : List Nat} {id : NodeId} :
    (∃ p ∈ ast.places root, p.path = path ∧ p.id = id) ↔ ast.at? root path = some id := by
  have hmem := h.unfolds_outline.mem_places_iff [] [] path id
  rwa [id_outline] at hmem

theorem get?_eq_some_of_mem_children {child : NodeId} (h : child ∈ ast.children id) :
    ∃ n, ast.get? id = some n ∧ child ∈ n.kind.children := by
  unfold children at h
  split at h
  · next n hn => exact ⟨n, hn, h⟩
  · cases h

/-- If something grows from children to their parents, no reference leads back. -/
theorem acyclic_of_lt (rank : NodeId → Nat)
    (h : ∀ id, ∀ child ∈ ast.children id, rank child < rank id) (root : NodeId) :
    ast.Acyclic root := by
  have hle : ∀ (path : List Nat) (id x : NodeId), ast.at? id path = some x → rank x ≤ rank id := by
    intro path
    induction path with
    | nil =>
      intro id x hp
      obtain rfl := Option.some.inj hp
      exact Nat.le_refl _
    | cons i path ih =>
      intro id x hp
      obtain ⟨child, hc, hp⟩ := at?_cons_eq_some.mp hp
      exact Nat.le_trans (ih child x hp) (Nat.le_of_lt (h id child (List.mem_of_getElem? hc)))
  intro path id i rest _ hback
  obtain ⟨child, hc, hp⟩ := at?_cons_eq_some.mp hback
  have hlt := h id child (List.mem_of_getElem? hc)
  exact Nat.lt_irrefl _ (Nat.lt_of_le_of_lt (hle rest child id hp) hlt)

/-- Children have smaller indices than their parents. -/
def Rising (ast : Ast) : Prop :=
  ∀ id n, ast.get? id = some n → ∀ child ∈ n.kind.children, child.index < id.index

theorem rising_empty (source : Nat) : (empty source).Rising := by
  intro id n hn
  rw [show (empty source).get? id = none from Arena.get?_empty id] at hn
  cases hn

theorem Rising.add (h : ast.Rising) {kind : NodeKind} {loc : Loc}
    (hk : ∀ child ∈ kind.children, child.index < (ast.add kind loc).1.index) :
    (ast.add kind loc).2.Rising := by
  intro id n hn
  rw [get?_add] at hn
  split at hn
  · next hid =>
    cases hn
    subst hid
    exact hk
  · exact h id n hn

theorem Rising.acyclic (h : ast.Rising) (root : NodeId) : ast.Acyclic root := by
  refine acyclic_of_lt Key.index (fun id child hc => ?_) root
  obtain ⟨n, hn, hmem⟩ := get?_eq_some_of_mem_children hc
  exact h id n hn child hmem

end Ast

end FlatScope
