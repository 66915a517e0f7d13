import Mathlib.Data.List.Nodup
import FlatScope.Proofs.Unfolding

/-!
# Paths

A path says which child to go to at every step, so one node may be at the end of several paths.
`ast.Acyclic root`: no path from the root comes back to a node that it passes, so it is shorter
than the arena (`Acyclic.length_lt`). `ast.Intact root`: whatever is reachable is live, was read,
and is reached along one path. Below such a root the arena shows one tree, `ast.outline root`, and
no node occurs in it twice; the paths are its places (`Intact.shows_outline`,
`Intact.nodup_outline`).
-/

namespace FlatScope.Ast

variable {ast : Ast} {root id : NodeId} {o : Outline}

/-- The id at the end of a path. -/
def at? (ast : Ast) (id : NodeId) : List Nat → Option NodeId
  | [] => some id
  | i :: path =>
    match (ast.children id)[i]? with
    | some child => ast.at? child path
    | none => none

/-- The ids that a path passes, both ends included. -/
def trail (ast : Ast) (id : NodeId) : List Nat → List NodeId
  | [] => [id]
  | i :: path =>
    match (ast.children id)[i]? with
    | some child => id :: ast.trail child path
    | none => [id]

structure Intact (ast : Ast) (root : NodeId) : Prop where
  live : ∀ path id, ast.at? root path = some id → ∃ n, ast.get? id = some n ∧ n.kind ≠ .error
  once : ∀ path path' id, ast.at? root path = some id → ast.at? root path' = some id →
    path = path'

theorem at?_cons {child : NodeId} {i : Nat} (hc : (ast.children id)[i]? = some child)
    (path : List Nat) : ast.at? id (i :: path) = ast.at? child path := by
  rw [at?, hc]

theorem trail_cons {child : NodeId} {i : Nat} (hc : (ast.children id)[i]? = some child)
    (path : List Nat) : ast.trail id (i :: path) = id :: ast.trail child path := by
  rw [trail, hc]

theorem at?_cons_eq_some {i : Nat} {path : List Nat} {x : NodeId} :
    ast.at? id (i :: path) = some x ↔
      ∃ child, (ast.children id)[i]? = some child ∧ ast.at? child path = some x := by
  rw [at?]
  cases (ast.children id)[i]? with
  | none => simp
  | some child => simp

theorem children_of_get? {n : Node} (hn : ast.get? id = some n) :
    ast.children id = n.kind.children := by
  unfold children
  rw [hn]

/-- What a path passes is at the end of a path that goes as far. -/
theorem exists_prefix_of_mem_trail {path : List Nat} {x : NodeId} (hx : x ∈ ast.trail id path) :
    ∃ path', path' <+: path ∧ ast.at? id path' = some x := by
  induction path generalizing id with
  | nil =>
    obtain rfl := List.mem_singleton.mp hx
    exact ⟨[], List.prefix_rfl, rfl⟩
  | cons i path ih =>
    rw [trail] at hx
    split at hx
    · next child hc =>
      rcases List.mem_cons.mp hx with rfl | hx
      · exact ⟨[], List.nil_prefix, rfl⟩
      · obtain ⟨path', hprefix, hp⟩ := ih hx
        exact ⟨i :: path', List.cons_prefix_cons.mpr ⟨rfl, hprefix⟩, by rw [at?_cons hc, hp]⟩
    · obtain rfl := List.mem_singleton.mp hx
      exact ⟨[], List.nil_prefix, rfl⟩

theorem exists_at?_of_mem_trail {path : List Nat} {x : NodeId} (hx : x ∈ ast.trail id path) :
    ∃ path', ast.at? id path' = some x := by
  obtain ⟨path', -, hp⟩ := exists_prefix_of_mem_trail hx
  exact ⟨path', hp⟩

theorem length_trail {path : List Nat} (h : ast.at? root path = some id) :
    (ast.trail root path).length = path.length + 1 := by
  induction path generalizing root with
  | nil => rfl
  | cons i path ih =>
    obtain ⟨child, hc, hp⟩ := at?_cons_eq_some.mp h
    rw [trail_cons hc, List.length_cons, ih hp, List.length_cons]

theorem at?_append (ast : Ast) (root : NodeId) (path rest : List Nat) :
    ast.at? root (path ++ rest) = (ast.at? root path).bind fun id => ast.at? id rest := by
  induction path generalizing root with
  | nil => rfl
  | cons i path ih =>
    rw [List.cons_append, at?, at?]
    split
    · next child hc => exact ih child
    · rfl

/-! ## Below a top from which no circle is reached -/

/-- No node that is reached from the top is reached again from itself. -/
def Acyclic (ast : Ast) (root : NodeId) : Prop :=
  ∀ path id i rest, ast.at? root path = some id → ast.at? id (i :: rest) ≠ some id

theorem Acyclic.child (h : ast.Acyclic root) {i : Nat} {child : NodeId}
    (hc : (ast.children root)[i]? = some child) : ast.Acyclic child := by
  intro path id j rest hp
  exact h (i :: path) id j rest ((at?_cons hc path).trans hp)

theorem Acyclic.nodup_trail (h : ast.Acyclic root) (path : List Nat) :
    (ast.trail root path).Nodup := by
  induction path generalizing root with
  | nil => exact List.nodup_singleton _
  | cons i path ih =>
    rw [trail]
    split
    · next child hc =>
      refine List.nodup_cons.mpr ⟨fun hmem => ?_, ih (h.child hc)⟩
      obtain ⟨path', hp⟩ := exists_at?_of_mem_trail hmem
      exact h [] root i path' rfl ((at?_cons hc path').trans hp)
    · exact List.nodup_singleton _

/-- Whatever a path to a live node passes is live. -/
theorem trail_subset_ids {path : List Nat} {n : Node} (hp : ast.at? root path = some id)
    (hn : ast.get? id = some n) : ast.trail root path ⊆ ast.ids := by
  induction path generalizing root with
  | nil =>
    obtain rfl := Option.some.inj hp
    intro x hx
    obtain rfl := List.mem_singleton.mp hx
    exact mem_ids.mpr ⟨n, hn⟩
  | cons i path ih =>
    obtain ⟨child, hc, hp⟩ := at?_cons_eq_some.mp hp
    rw [trail_cons hc]
    refine List.cons_subset.mpr ⟨?_, ih hp⟩
    -- the top has a child, so it is there
    cases hroot : ast.get? root with
    | none =>
      unfold children at hc
      rw [hroot] at hc
      cases hc
    | some m => exact mem_ids.mpr ⟨m, hroot⟩

theorem Acyclic.length_lt (h : ast.Acyclic root) {path : List Nat} {n : Node}
    (hp : ast.at? root path = some id) (hn : ast.get? id = some n) : path.length < ast.size := by
  have hle := ((h.nodup_trail path).subperm (trail_subset_ids hp hn)).length_le
  rw [length_trail hp, length_ids] at hle
  exact hle

/-! ## Below an intact root -/

/-- What is below a child is intact as well. -/
theorem Intact.child (h : ast.Intact root) {i : Nat} {child : NodeId}
    (hc : (ast.children root)[i]? = some child) : ast.Intact child where
  live path id hp := h.live (i :: path) id (by rw [at?_cons hc, hp])
  once path path' id hp hp' := by
    have heq := h.once (i :: path) (i :: path') id (by rw [at?_cons hc, hp])
      (by rw [at?_cons hc, hp'])
    exact (List.cons.inj heq).2

theorem Intact.acyclic (h : ast.Intact root) : ast.Acyclic root := by
  intro path id i rest hp hback
  have hlong : ast.at? root (path ++ i :: rest) = some id := by
    rw [at?_append, hp, Option.bind_some, hback]
  have heq := congrArg List.length (h.once _ _ _ hp hlong)
  rw [List.length_append, List.length_cons] at heq
  omega

theorem Intact.length_lt (h : ast.Intact root) {path : List Nat}
    (hp : ast.at? root path = some id) : path.length < ast.size := by
  obtain ⟨n, hn, -⟩ := h.live path id hp
  exact h.acyclic.length_lt hp hn

theorem id_outlineWithin (ast : Ast) (depth : Nat) (id : NodeId) :
    (ast.outlineWithin depth id).id = id := by
  cases depth with
  | zero => rfl
  | succ depth =>
    unfold outlineWithin
    split
    · rfl
    · next n hn => exact ast.id_eq id n hn

theorem map_id_outlineWithin (ast : Ast) (depth : Nat) (ids : List NodeId) :
    (ids.map (ast.outlineWithin depth)).map Outline.id = ids := by
  have hids : Outline.id ∘ ast.outlineWithin depth = fun c => c :=
    funext (id_outlineWithin ast depth)
  rw [List.map_map, hids, List.map_id']

@[simp] theorem id_outline (ast : Ast) (id : NodeId) : (ast.outline id).id = id :=
  id_outlineWithin ast ast.size id

theorem Intact.shows_outlineWithin (h : ast.Intact root) {depth : Nat}
    (hd : ∀ path id, ast.at? root path = some id → path.length < depth) :
    ast.Shows (ast.outlineWithin depth root) := by
  induction depth generalizing root with
  | zero => exact absurd (hd [] root rfl) (Nat.not_lt_zero _)
  | succ depth ih =>
    obtain ⟨n, hn, -⟩ := h.live [] root rfl
    have hid : n.id = root := ast.id_eq root n hn
    simp only [outlineWithin, hn]
    refine .node (hid ▸ hn) ?_ ?_
    · exact (map_id_outlineWithin ast depth n.kind.children).symm
    · intro o ho
      obtain ⟨child, hmem, rfl⟩ := List.mem_map.mp ho
      obtain ⟨i, hi⟩ := List.getElem?_of_mem hmem
      have hc : (ast.children root)[i]? = some child := by rwa [children_of_get? hn]
      refine ih (h.child hc) fun path id hp => ?_
      have hlt := hd (i :: path) id (by rw [at?_cons hc, hp])
      exact Nat.lt_of_succ_lt_succ hlt

/-- The outline of an intact root is complete. -/
theorem Intact.shows_outline (h : ast.Intact root) : ast.Shows (ast.outline root) :=
  h.shows_outlineWithin fun _ _ hp => h.length_lt hp

/-! ## Places in a tree -/

section

variable {n : Node} {children : List Outline}

theorem getElem?_children (hn : ast.get? n.id = some n)
    (hk : n.kind.children = children.map Outline.id) (i : Nat) :
    (ast.children n.id)[i]? = children[i]?.map Outline.id := by
  rw [children_of_get? hn, hk, List.getElem?_map]

/-- A path goes on in the tree of the child it goes to first. -/
theorem at?_cons_eq_bind (hn : ast.get? n.id = some n)
    (hk : n.kind.children = children.map Outline.id) (i : Nat) (path : List Nat) :
    ast.at? n.id (i :: path) = children[i]?.bind fun o => ast.at? o.id path := by
  rw [at?, getElem?_children hn hk]
  cases children[i]? <;> rfl

/-- A path that makes a step ends below the child it goes to first. -/
theorem exists_child_of_at? (hn : ast.get? n.id = some n)
    (hk : n.kind.children = children.map Outline.id) {i : Nat} {path : List Nat} {x : NodeId}
    (hp : ast.at? n.id (i :: path) = some x) :
    ∃ o, children[i]? = some o ∧ (ast.children n.id)[i]? = some o.id ∧
      ast.at? o.id path = some x := by
  obtain ⟨child, hc, hp⟩ := at?_cons_eq_some.mp hp
  have hmap := hc
  rw [getElem?_children hn hk] at hmap
  obtain ⟨o, ho, rfl⟩ := Option.map_eq_some_iff.mp hmap
  exact ⟨o, ho, hc, hp⟩

end

/-- The ids of a tree are what is at the end of a path from its top. -/
theorem Shows.mem_ids_iff (h : ast.Shows o) {x : NodeId} :
    x ∈ o.ids ↔ ∃ path, ast.at? o.id path = some x := by
  induction h with
  | @node n children hn hk hs ih =>
    rw [Outline.ids_node, List.mem_cons, List.mem_flatMap]
    constructor
    · rintro (rfl | ⟨o, ho, hx⟩)
      · exact ⟨[], rfl⟩
      · obtain ⟨path, hp⟩ := (ih o ho).mp hx
        obtain ⟨i, hi⟩ := List.getElem?_of_mem ho
        have hc : (ast.children n.id)[i]? = some o.id := by rw [getElem?_children hn hk, hi]; rfl
        exact ⟨i :: path, (at?_cons hc path).trans hp⟩
    · rintro ⟨path, hp⟩
      cases path with
      | nil => exact .inl (Option.some.inj hp).symm
      | cons i path =>
        obtain ⟨o, ho, -, hp⟩ := exists_child_of_at? hn hk hp
        have ho := List.mem_of_getElem? ho
        exact .inr ⟨o, ho, (ih o ho).mpr ⟨path, hp⟩⟩

/-- Below an intact root no node occurs twice. -/
theorem Shows.nodup_of_intact (h : ast.Shows o) (hi : ast.Intact o.id) : o.ids.Nodup := by
  induction h with
  | @node n children hn hk hs ih =>
    have hcs : ∀ (i : Nat) (o : Outline), children[i]? = some o →
        (ast.children n.id)[i]? = some o.id := by
      intro i o ho
      rw [getElem?_children hn hk, ho]
      rfl
    rw [Outline.ids_node, List.nodup_cons, List.nodup_flatMap]
    refine ⟨fun hmem => ?_, fun o ho => ?_, ?_⟩
    · obtain ⟨o, ho, hx⟩ := List.mem_flatMap.mp hmem
      obtain ⟨path, hp⟩ := (hs o ho).mem_ids_iff.mp hx
      obtain ⟨i, hio⟩ := List.getElem?_of_mem ho
      exact hi.acyclic [] n.id i path rfl ((at?_cons (hcs i o hio) path).trans hp)
    · obtain ⟨i, hio⟩ := List.getElem?_of_mem ho
      exact ih o ho (hi.child (hcs i o hio))
    · rw [List.pairwise_iff_getElem]
      intro i j hil hjl hij x hx hx'
      obtain ⟨path, hp⟩ := (hs _ (List.getElem_mem hil)).mem_ids_iff.mp hx
      obtain ⟨path', hp'⟩ := (hs _ (List.getElem_mem hjl)).mem_ids_iff.mp hx'
      have heq := hi.once (i :: path) (j :: path') x
        ((at?_cons (hcs i _ (List.getElem?_eq_getElem hil)) path).trans hp)
        ((at?_cons (hcs j _ (List.getElem?_eq_getElem hjl)) path').trans hp')
      have := (List.cons.inj heq).1
      omega

theorem Intact.nodup_outline (h : ast.Intact root) : (ast.outline root).ids.Nodup :=
  h.shows_outline.nodup_of_intact ((ast.id_outline root).symm ▸ h)

theorem Intact.read_outline (h : ast.Intact root) : ∀ n ∈ (ast.outline root).nodes,
    n.kind ≠ .error := by
  intro n hn
  have hid : n.id ∈ (ast.outline root).ids := List.mem_map_of_mem hn
  obtain ⟨path, hp⟩ := h.shows_outline.mem_ids_iff.mp hid
  rw [id_outline] at hp
  obtain ⟨m, hm, hread⟩ := h.live path n.id hp
  rw [h.shows_outline.get?_of_mem hn] at hm
  cases hm
  exact hread

/-- A tree without repetition in which everything was read is intact. -/
theorem Shows.intact (h : ast.Shows o) (nodup : o.ids.Nodup)
    (hread : ∀ n ∈ o.nodes, n.kind ≠ .error) : ast.Intact o.id := by
  refine ⟨fun path id hp => ?_, ?_⟩
  · obtain ⟨n, hn, rfl⟩ := List.mem_map.mp (h.mem_ids_iff.mpr ⟨path, hp⟩)
    exact ⟨n, h.get?_of_mem hn, hread n hn⟩
  · clear hread
    induction h with
    | @node n children hn hk hs ih =>
      rw [Outline.ids_node, List.nodup_cons, List.nodup_flatMap] at nodup
      obtain ⟨htop, hnodup, hdisjoint⟩ := nodup
      have below : ∀ i path, ast.at? n.id (i :: path) ≠ some n.id := by
        intro i path hp
        obtain ⟨o, ho, -, hp⟩ := exists_child_of_at? hn hk hp
        have ho := List.mem_of_getElem? ho
        exact htop (List.mem_flatMap.mpr ⟨o, ho, (hs o ho).mem_ids_iff.mpr ⟨path, hp⟩⟩)
      intro path path' x hp hp'
      cases path with
      | nil =>
        obtain rfl := Option.some.inj hp
        cases path' with
        | nil => rfl
        | cons j path' => exact absurd hp' (below j path')
      | cons i path =>
        cases path' with
        | nil =>
          obtain rfl := Option.some.inj hp'
          exact absurd hp (below i path)
        | cons j path' =>
          obtain ⟨o, ho, -, hp⟩ := exists_child_of_at? hn hk hp
          obtain ⟨o', ho', -, hp'⟩ := exists_child_of_at? hn hk hp'
          obtain ⟨hil, rfl⟩ := List.getElem?_eq_some_iff.mp ho
          obtain ⟨hjl, rfl⟩ := List.getElem?_eq_some_iff.mp ho'
          have hx := (hs _ (List.getElem_mem hil)).mem_ids_iff.mpr ⟨path, hp⟩
          have hx' := (hs _ (List.getElem_mem hjl)).mem_ids_iff.mpr ⟨path', hp'⟩
          rw [List.pairwise_iff_getElem] at hdisjoint
          rcases Nat.lt_trichotomy i j with hij | rfl | hij
          · exact absurd hx' fun hx' => hdisjoint i j hil hjl hij hx hx'
          · rw [ih _ (List.getElem_mem hil) (hnodup _ (List.getElem_mem hil)) path path' x hp hp']
          · exact absurd hx fun hx => hdisjoint j i hjl hil hij hx' hx

end FlatScope.Ast
