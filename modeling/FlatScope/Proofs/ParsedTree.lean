import Mathlib.Data.List.Nodup
import Mathlib.Data.List.Pairwise
import FlatScope.Proofs.Descending
import FlatScope.Proofs.Parsing
import FlatScope.Proofs.Roles

/-!
# The arena of a parsed source

The arena that parsing leaves is exactly one tree: `IsTree ast root`. No node is left over from an
alternative that was given up, and every reference leads to a node of the kind its field asks for.
-/

namespace FlatScope

namespace Outline

/-- The references in the tree, node by node. -/
def references (o : Outline) : List NodeId := o.nodes.flatMap (·.kind.children)

end Outline

namespace Ast

variable {ast : Ast} {o : Outline}

/-- The top and the references are the ids of the tree, each as often as it occurs. -/
theorem Shows.references_perm (h : ast.Shows o) : (o.id :: o.references).Perm o.ids := by
  induction h with
  | @node n children hn hk hs ih =>
    have inner : (children.map Outline.id ++ children.flatMap Outline.references).Perm
        (children.flatMap Outline.ids) := by
      clear hk hs
      induction children with
      | nil => exact .refl _
      | cons o os ihos =>
        have ho := ih o List.mem_cons_self
        have hos := ihos fun o' ho' => ih o' (List.mem_cons_of_mem _ ho')
        rw [List.map_cons, List.flatMap_cons, List.flatMap_cons, List.cons_append]
        have hswap : (os.map Outline.id ++ (o.references ++ os.flatMap Outline.references)).Perm
            (o.references ++ (os.map Outline.id ++ os.flatMap Outline.references)) := by
          rw [← List.append_assoc, ← List.append_assoc]
          exact List.perm_append_comm.append_right _
        exact (hswap.cons o.id).trans (ho.append hos)
    rw [Outline.ids_node]
    refine List.Perm.cons _ ?_
    unfold Outline.references
    rw [Outline.nodes_node, List.flatMap_cons, hk, List.flatMap_assoc]
    exact inner

/-- In a tree without repetition every node but the top has one parent. -/
theorem Shows.existsUnique_parent (h : ast.Shows o) (nodup : o.ids.Nodup) {id : NodeId}
    (hid : id ∈ o.ids) (ne : id ≠ o.id) : ∃! m, m ∈ o.nodes ∧ id ∈ m.kind.children := by
  have hperm := h.references_perm
  have hmem : id ∈ o.id :: o.references := hperm.mem_iff.mpr hid
  have hrefs : id ∈ o.references := by
    rcases List.mem_cons.mp hmem with eq | hmem
    · exact absurd eq ne
    · exact hmem
  have hnodup : o.references.Nodup := (List.nodup_cons.mp (hperm.nodup_iff.mpr nodup)).2
  obtain ⟨m, hm, hc⟩ := List.mem_flatMap.mp hrefs
  refine ⟨m, ⟨hm, hc⟩, ?_⟩
  rintro m' ⟨hm', hc'⟩
  by_contra hne
  -- two nodes that share a child would repeat it among the references
  have hsymm : Std.Symm (Function.onFun List.Disjoint fun n : Node => n.kind.children) :=
    ⟨fun _ _ hab x hx hx' => hab hx' hx⟩
  have hdisjoint := (List.nodup_flatMap.mp hnodup).2.forall hm' hm hne
  exact hdisjoint hc' hc

end Ast

/-- The arena holds one tree and nothing else. -/
structure IsTree (ast : Ast) (root : NodeId) : Prop where
  /-- the descendants of the top are the nodes of the arena, each of them once -/
  each_once : ((ast.descendants root).map (·.id)).Nodup ∧
    ∀ id, id ∈ (ast.descendants root).map (·.id) ↔ ∃ n, ast.get? id = some n
  size_eq : (ast.descendants root).length = ast.size
  /-- no reference leads to the top, and one node refers to each of the others, in one place -/
  root_free : ∀ id n, ast.get? id = some n → root ∉ n.kind.children
  one_parent : ∀ id n, ast.get? id = some n → id ≠ root →
    ∃! m : Node, ast.get? m.id = some m ∧ id ∈ m.kind.children
  children_nodup : ∀ id n, ast.get? id = some n → n.kind.children.Nodup
  /-- ids are given out in order -/
  children_first : ∀ id n, ast.get? id = some n → ∀ child ∈ n.kind.children, child.index < id.index
  no_dangling : ∀ id n, ast.get? id = some n → ∀ child ∈ n.kind.children,
    ∃ m, ast.get? child = some m
  no_error : ∀ id n, ast.get? id = some n → n.kind ≠ .error
  root_unit : ∃ n, ast.get? root = some n ∧ Role.unit.admits n.kind
  demands_met : ∀ id n, ast.get? id = some n → ∀ d ∈ n.kind.demands,
    ∃ m, ast.get? d.1 = some m ∧ d.2.admits m.kind

namespace Ast

/-- A program that is all of an arena is a tree. -/
theorem isTree_of_adds_empty {source : Nat} {ast : Ast} {o : Outline} {p : Program}
    (h : (empty source).Adds ast [o]) (hp : o.piece? = some (.program p)) : IsTree ast o.id := by
  have hs : ast.Shows o := h.shows o List.mem_cons_self
  obtain ⟨hids, hout⟩ := outline_of_adds_empty h
  have hnodup : o.ids.Nodup := hids.nodup_iff.mpr (Arena.keys_nodup _)
  have hdesc : (ast.descendants o.id).map (·.id) = o.ids := by
    rw [Unfolds.descendants_eq (hout.symm ▸ hs.unfolds), hout]
    rfl
  have hrefs : (o.id :: o.references).Nodup := hs.references_perm.nodup_iff.mpr hnodup
  -- the live nodes are those of the tree
  have live : ∀ id n, ast.get? id = some n → n ∈ o.nodes ∧ n.id = id := by
    intro id n hn
    have hid : n.id = id := ast.id_eq id n hn
    have hmem : id ∈ o.ids := hids.mem_iff.mpr (mem_ids.mpr ⟨n, hn⟩)
    obtain ⟨m, hm, rfl⟩ := List.mem_map.mp hmem
    have hget := hs.get?_of_mem hm
    rw [hn] at hget
    cases hget
    exact ⟨hm, hid⟩
  have child_live : ∀ id n, ast.get? id = some n → ∀ child ∈ n.kind.children,
      ∃ m, ast.get? child = some m := by
    intro id n hn child hc
    have hmem := hs.children_mem (live id n hn).1 hc
    exact mem_ids.mp (hids.mem_iff.mp hmem)
  refine ⟨⟨hdesc ▸ hnodup, fun id => ?_⟩, ?_, ?_, ?_, ?_, ?_, child_live, ?_, ?_, ?_⟩
  · rw [hdesc, hids.mem_iff]
    exact mem_ids
  · have hlen := hids.length_eq
    rwa [length_ids, ← hdesc, List.length_map] at hlen
  · intro id n hn hroot
    have hmem : o.id ∈ o.references := List.mem_flatMap.mpr ⟨n, (live id n hn).1, hroot⟩
    exact (List.nodup_cons.mp hrefs).1 hmem
  · intro id n hn ne
    have hmem : id ∈ o.ids := hids.mem_iff.mpr (mem_ids.mpr ⟨n, hn⟩)
    obtain ⟨m, ⟨hm, hc⟩, huniq⟩ := hs.existsUnique_parent hnodup hmem ne
    refine ⟨m, ⟨hs.get?_of_mem hm, hc⟩, ?_⟩
    rintro m' ⟨hm', hc'⟩
    exact huniq m' ⟨(live m'.id m' hm').1, hc'⟩
  · intro id n hn
    exact (List.nodup_flatMap.mp (List.nodup_cons.mp hrefs).2).1 n (live id n hn).1
  · intro id n hn child hc
    obtain ⟨hm, rfl⟩ := live id n hn
    exact h.ordered o List.mem_cons_self n hm child hc
  · intro id n hn herror
    obtain ⟨os, parts, y, -, -, -, hy⟩ := hs.assembled hp (live id n hn).1
    rw [herror] at hy
    cases hy
  · obtain ⟨n, _, _, hn, -, -, -, hasm⟩ := hs.top_assembled hp
    exact ⟨n, hn, Role.admits_of_assemble hasm rfl⟩
  · intro id n hn d hd
    exact hs.demand_met hp (live id n hn).1 hd

/-- Parsing leaves one tree in the arena and nothing else, whatever alternatives it gave up. -/
theorem parse_isTree {source : Nat} {text : String} {ast : Ast} {root : NodeId}
    (h : parse .unit source text = .ok (ast, root)) : IsTree ast root := by
  obtain ⟨p, o, -, -, rfl, hadds, hp⟩ := exists_of_ofLexemes h
  exact isTree_of_adds_empty hadds hp

/-- A declaration and an assignment, which begins like one. -/
theorem parse_isTree_assignment : ∃ ast root,
    parse .unit 0 "class A { A f(A x) { A y; y = x; return y; } }" = .ok (ast, root) ∧
      IsTree ast root := by
  have hok : (parse .unit 0 "class A { A f(A x) { A y; y = x; return y; } }").isOk := by
    decide +kernel
  cases h : parse .unit 0 "class A { A f(A x) { A y; y = x; return y; } }" with
  | error e =>
    rw [h] at hok
    cases hok
  | ok r => exact ⟨r.1, r.2, rfl, parse_isTree h⟩

end Ast

end FlatScope
