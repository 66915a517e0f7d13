import Mathlib.Data.List.Perm.Subperm
import FlatScope.Proofs.Outline

/-!
# Trees in the arena

`ast.Shows o`: the arena holds the tree `o`, node by node, so `ast.outline` unfolds it again from
its top unless some node occurs twice (`outline_eq`). `a.Adds b os`: arena `b` is `a` with exactly
the nodes of the trees `os` added, each made after its children. Making a node joins the trees of
its children to one (`Adds.node`).
-/

namespace FlatScope

namespace Outline

/-- Induction over unfolded trees, with one hypothesis for all children of a node. -/
@[elab_as_elim, induction_eliminator]
theorem induct {motive : Outline → Prop} (missing : ∀ id, motive (.missing id))
    (node : ∀ n children, (∀ o ∈ children, motive o) → motive (.node n children)) (o : Outline) :
    motive o :=
  @Outline.rec motive (fun os => ∀ o ∈ os, motive o) missing node (by simp)
    (fun _ _ head tail => List.forall_mem_cons.mpr ⟨head, tail⟩) o

theorem entriesOfAll_eq_flatMap (depth : Nat) (os : List Outline) :
    entriesOfAll depth os = os.flatMap (entries depth) := by
  induction os with
  | nil => rfl
  | cons o os ih => rw [entriesOfAll, ih, List.flatMap_cons]

/-- The depth only labels the entries. -/
theorem filterMap_entries (depth : Nat) (o : Outline) :
    (o.entries depth).filterMap (·.2.2) = o.nodes := by
  unfold nodes
  generalize 0 = other
  induction o generalizing depth other with
  | missing id => rfl
  | node n children ih =>
    simp only [entries, entriesOfAll_eq_flatMap, List.filterMap_cons, List.filterMap_flatMap]
    rw [List.flatMap_congr fun o ho => ih o ho (depth + 1) (other + 1)]

@[simp] theorem nodes_missing (id : NodeId) : (missing id).nodes = [] := rfl

@[simp] theorem nodes_node (n : Node) (children : List Outline) :
    (node n children).nodes = n :: children.flatMap nodes := by
  simp only [nodes, entries, entriesOfAll_eq_flatMap, List.filterMap_cons, List.filterMap_flatMap]
  rw [List.flatMap_congr fun o _ => filterMap_entries 1 o]

/-- The ids of the live nodes, parents before children. -/
def ids (o : Outline) : List NodeId := o.nodes.map (·.id)

@[simp] theorem ids_node (n : Node) (children : List Outline) :
    (node n children).ids = n.id :: children.flatMap ids := by
  simp only [ids, nodes_node, List.map_cons, List.map_flatMap]
  rfl

theorem length_nodes_le {o : Outline} {os : List Outline} (h : o ∈ os) :
    o.nodes.length ≤ (os.flatMap nodes).length := by
  rw [List.flatMap_def]
  exact (List.sublist_flatten_of_mem (List.mem_map_of_mem h)).length_le

/-- Every node was made after its children. -/
def Ordered (o : Outline) : Prop :=
  ∀ n ∈ o.nodes, ∀ child ∈ n.kind.children, child.index < n.id.index

end Outline

namespace Ast

/-- The arena holds this tree. -/
inductive Shows (ast : Ast) : Outline → Prop where
  | node {n : Node} {children : List Outline} : ast.get? n.id = some n →
      n.kind.children = children.map Outline.id → (∀ o ∈ children, ast.Shows o) →
      ast.Shows (.node n children)

variable {a b c ast : Ast} {o : Outline} {os : List Outline}

theorem Shows.get?_of_mem (h : ast.Shows o) {n : Node} (hn : n ∈ o.nodes) :
    ast.get? n.id = some n := by
  induction h with
  | node hm _ _ ih =>
    rw [Outline.nodes_node] at hn
    rcases List.mem_cons.mp hn with rfl | hn
    · exact hm
    · obtain ⟨o, ho, hn⟩ := List.mem_flatMap.mp hn
      exact ih o ho hn

theorem Shows.id_mem (h : ast.Shows o) : o.id ∈ o.ids := by
  cases h
  rw [Outline.ids_node]
  exact List.mem_cons_self

/-- Every child in the tree is the top of a tree in it. -/
theorem Shows.children_mem (h : ast.Shows o) {n : Node} (hn : n ∈ o.nodes) {child : NodeId}
    (hc : child ∈ n.kind.children) : child ∈ o.ids := by
  induction h with
  | @node m children hm hk hs ih =>
    rw [Outline.ids_node]
    rw [Outline.nodes_node] at hn
    rcases List.mem_cons.mp hn with rfl | hn
    · rw [hk] at hc
      obtain ⟨o, ho, rfl⟩ := List.mem_map.mp hc
      exact List.mem_cons_of_mem _ (List.mem_flatMap.mpr ⟨o, ho, (hs o ho).id_mem⟩)
    · obtain ⟨o, ho, hn⟩ := List.mem_flatMap.mp hn
      exact List.mem_cons_of_mem _ (List.mem_flatMap.mpr ⟨o, ho, ih o ho hn⟩)

theorem Shows.mono (h : a.Shows o) (keeps : ∀ id n, a.get? id = some n → b.get? id = some n) :
    b.Shows o := by
  induction h with
  | node hn hk _ ih => exact .node (keeps _ _ hn) hk ih

theorem Shows.outlineWithin_eq (h : ast.Shows o) {depth : Nat} (hd : o.nodes.length ≤ depth) :
    ast.outlineWithin depth o.id = o := by
  induction h generalizing depth with
  | @node n children hn hk hs ih =>
    rw [Outline.nodes_node, List.length_cons] at hd
    obtain ⟨depth, rfl⟩ : ∃ d, depth = d + 1 := ⟨depth - 1, by omega⟩
    simp only [Outline.id, outlineWithin, hn, hk, List.map_map]
    have key : ∀ o ∈ children, (ast.outlineWithin depth ∘ Outline.id) o = o := by
      intro o ho
      have hle := Outline.length_nodes_le ho
      exact ih o ho (by omega)
    rw [List.map_congr_left key, List.map_id']

theorem mem_ids {id : NodeId} : id ∈ ast.ids ↔ ∃ n, ast.get? id = some n := Arena.mem_keys

theorem Shows.ids_subset (h : ast.Shows o) : o.ids ⊆ ast.ids := by
  intro id hid
  obtain ⟨n, hn, rfl⟩ := List.mem_map.mp hid
  exact mem_ids.mpr ⟨n, h.get?_of_mem hn⟩

theorem length_ids (ast : Ast) : ast.ids.length = ast.size := Arena.length_keys _

/-- A tree without repetition is unfolded in full. -/
theorem Shows.outline_eq (h : ast.Shows o) (nodup : o.ids.Nodup) : ast.outline o.id = o := by
  have hle := (nodup.subperm h.ids_subset).length_le
  rw [length_ids, Outline.ids, List.length_map] at hle
  exact h.outlineWithin_eq hle

/-! ## Adding nodes -/

theorem get?_add (ast : Ast) (kind : NodeKind) (loc : Loc) (id : NodeId) :
    (ast.add kind loc).2.get? id =
      if id = (ast.add kind loc).1 then some ⟨id, kind, loc⟩ else ast.get? id :=
  Arena.get?_insert _ _ _

theorem ids_add (ast : Ast) (kind : NodeKind) (loc : Loc) :
    (ast.add kind loc).2.ids.Perm ((ast.add kind loc).1 :: ast.ids) := Arena.keys_insert _ _

/-- In an arena that nothing was taken out of, a new node comes behind all others. -/
theorem index_lt_add {ast : Ast} (h : ast.nodes.free = []) (kind : NodeKind) (loc : Loc)
    {id : NodeId} {n : Node} (hn : ast.get? id = some n) :
    id.index < (ast.add kind loc).1.index := by
  obtain ⟨i, version, rfl, hc⟩ := Arena.get?_eq_some.mp hn
  have hi : i < ast.nodes.cells.size := (Array.getElem?_eq_some_iff.mp hc).1
  rcases ast.nodes.insert_cases fun id => ⟨id, kind, loc⟩ with ⟨-, -, hk, -⟩ | ⟨j, _, hf, -⟩
  · show _ < (ast.nodes.insert _).1.index
    rw [hk]
    exact Nat.succ_lt_succ hi
  · rw [h] at hf
    cases hf

theorem free_add {ast : Ast} (h : ast.nodes.free = []) (kind : NodeKind) (loc : Loc) :
    (ast.add kind loc).2.nodes.free = [] := by
  rcases ast.nodes.insert_cases fun id => ⟨id, kind, loc⟩ with ⟨-, hf, -⟩ | ⟨j, _, hf, -⟩
  · exact hf
  · rw [h] at hf
    cases hf

/-- Arena `b` is `a` and the nodes of these trees; nothing was ever taken out. -/
structure Adds (a b : Ast) (os : List Outline) : Prop where
  keeps : ∀ id n, a.get? id = some n → b.get? id = some n
  shows : ∀ o ∈ os, b.Shows o
  ordered : ∀ o ∈ os, o.Ordered
  ids : b.ids.Perm (a.ids ++ os.flatMap Outline.ids)
  full : b.nodes.free = []

theorem Adds.refl (h : a.nodes.free = []) : a.Adds a [] where
  keeps _ _ hn := hn
  shows := by simp
  ordered := by simp
  ids := by simp
  full := h

theorem Adds.trans {os' : List Outline} (h : a.Adds b os) (h' : b.Adds c os') :
    a.Adds c (os ++ os') where
  keeps id n hn := h'.keeps id n (h.keeps id n hn)
  shows o ho := by
    rcases List.mem_append.mp ho with ho | ho
    · exact (h.shows o ho).mono h'.keeps
    · exact h'.shows o ho
  ordered o ho := by
    rcases List.mem_append.mp ho with ho | ho
    · exact h.ordered o ho
    · exact h'.ordered o ho
  ids := by
    rw [List.flatMap_append, ← List.append_assoc]
    exact h'.ids.trans (h.ids.append_right _)
  full := h'.full

/-- The order in which trees were made does not show. -/
theorem Adds.perm {os' : List Outline} (h : a.Adds b os) (p : os.Perm os') : a.Adds b os' where
  keeps := h.keeps
  shows o ho := h.shows o (p.mem_iff.mpr ho)
  ordered o ho := h.ordered o (p.mem_iff.mpr ho)
  ids := h.ids.trans ((p.flatMap_right _).append_left _)
  full := h.full

/-- A new node joins the trees of its children to one tree. -/
theorem Adds.node (h : a.Adds b os) {kind : NodeKind} (hk : kind.children = os.map Outline.id)
    (loc : Loc) :
    a.Adds (b.add kind loc).2 [.node ⟨(b.add kind loc).1, kind, loc⟩ os] := by
  have keeps : ∀ id n, b.get? id = some n → (b.add kind loc).2.get? id = some n :=
    fun id n hn => Arena.get?_insert_of_some hn
  refine ⟨fun id n hn => keeps id n (h.keeps id n hn), ?_, ?_, ?_, free_add h.full kind loc⟩
  · rintro o ho
    obtain rfl := List.mem_singleton.mp ho
    have htop : (b.add kind loc).2.get? (b.add kind loc).1 =
        some ⟨(b.add kind loc).1, kind, loc⟩ := by rw [get?_add, if_pos rfl]
    exact .node htop hk fun o ho => (h.shows o ho).mono keeps
  · rintro o ho n hn child hc
    obtain rfl := List.mem_singleton.mp ho
    rw [Outline.nodes_node] at hn
    rcases List.mem_cons.mp hn with rfl | hn
    · -- the children are in the arena already
      have hc : child ∈ os.map Outline.id := hk ▸ hc
      obtain ⟨o, ho, rfl⟩ := List.mem_map.mp hc
      obtain ⟨hm, -, -⟩ := h.shows o ho
      exact index_lt_add h.full kind loc hm
    · obtain ⟨o, ho, hn⟩ := List.mem_flatMap.mp hn
      exact h.ordered o ho n hn child hc
  · have key := (ids_add b kind loc).trans (h.ids.cons _)
    rw [List.flatMap_singleton, Outline.ids_node]
    exact key.trans List.perm_middle.symm

end Ast

end FlatScope
