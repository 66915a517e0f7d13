import Mathlib.Algebra.Order.BigOperators.Group.List
import Mathlib.Algebra.Order.Ring.Nat
import Mathlib.Logic.Function.Iterate
import FlatScope.Proofs.Places

/-!
# Descendants

`Ast.descendants` is a loop with a stack of its own. It takes one round for each reference of the
outline (`Unfolds.sweeps`), and there are no more of these than it is given rounds
(`count_outline_le`): it ends with nothing left to look at, and what it found are the live nodes of
the outline in order (`Acyclic.descendants_eq`).
-/

namespace FlatScope

namespace Outline

/-- The number of references in the tree. -/
def count (o : Outline) : Nat := (o.entries 0).length

theorem length_entries (depth : Nat) (o : Outline) : (o.entries depth).length = o.count := by
  unfold count
  generalize 0 = other
  induction o generalizing depth other with
  | missing id => rfl
  | node n children ih =>
    simp only [entries, entriesOfAll_eq_flatMap, List.length_cons, List.length_flatMap]
    rw [List.map_congr_left fun o ho => ih o ho (depth + 1) (other + 1)]

theorem count_node (n : Node) (children : List Outline) :
    (node n children).count = (children.map count).sum + 1 := by
  simp only [count, entries, entriesOfAll_eq_flatMap, List.length_cons, List.length_flatMap]
  rw [List.map_congr_left fun o _ => length_entries 1 o]

end Outline

namespace Ast

variable {ast : Ast} {root : NodeId}

theorem length_children_le {id : NodeId} {n : Node} (h : ast.get? id = some n) :
    n.kind.children.length ≤ ast.references := by
  have hmem : ast.children id ∈ ast.ids.map ast.children :=
    List.mem_map_of_mem (mem_ids.mpr ⟨n, h⟩)
  rw [children_of_get? h] at hmem
  rw [references, List.flatMap_def]
  exact (List.sublist_flatten_of_mem hmem).length_le

/-- An outline is no wider than there are references, level by level. -/
theorem count_outlineWithin_le (ast : Ast) (depth : Nat) (id : NodeId) :
    (ast.outlineWithin depth id).count ≤ (ast.references + 1) ^ depth := by
  induction depth generalizing id with
  | zero => exact Nat.le_refl 1
  | succ depth ih =>
    have hone : 1 ≤ (ast.references + 1) ^ depth := Nat.one_le_pow _ _ (Nat.succ_pos _)
    cases hn : ast.get? id with
    | none =>
      rw [outlineWithin_of_none hn]
      exact Nat.one_le_pow _ _ (Nat.succ_pos _)
    | some n =>
      rw [outlineWithin_of_some hn, Outline.count_node, List.map_map]
      calc (n.kind.children.map (Outline.count ∘ ast.outlineWithin depth)).sum + 1
          ≤ n.kind.children.length * (ast.references + 1) ^ depth + 1 := by
            have hsum := List.sum_le_card_nsmul
              (n.kind.children.map (Outline.count ∘ ast.outlineWithin depth))
              ((ast.references + 1) ^ depth) (by simpa using fun child _ => ih child)
            rw [List.length_map, Nat.nsmul_eq_mul] at hsum
            exact Nat.succ_le_succ hsum
        _ ≤ ast.references * (ast.references + 1) ^ depth + (ast.references + 1) ^ depth :=
            Nat.add_le_add (Nat.mul_le_mul_right _ (length_children_le hn)) hone
        _ = (ast.references + 1) ^ (depth + 1) := by rw [Nat.pow_succ', Nat.succ_mul]

theorem count_outline_le (ast : Ast) (id : NodeId) :
    (ast.outline id).count ≤ (ast.references + 1) ^ ast.size :=
  ast.count_outlineWithin_le ast.size id

/-! ## The rounds of the loop -/

theorem appendList_append {α : Type} (a : Array α) (xs ys : List α) :
    a ++ (xs ++ ys) = a ++ xs ++ ys := by
  simp [← Array.toList_inj]

theorem sweep_missing {id : NodeId} (h : ast.get? id = none) (found : Array Node)
    (rest : Array NodeId) : ast.sweep ⟨found, rest.push id⟩ = ⟨found, rest⟩ := by
  simp only [sweep, Array.back?_push, h, Array.pop_push]

theorem sweep_node {n : Node} (h : ast.get? n.id = some n) (found : Array Node)
    (rest : Array NodeId) : ast.sweep ⟨found, rest.push n.id⟩ =
      ⟨found.push n, rest ++ n.kind.children.reverse⟩ := by
  simp only [sweep, Array.back?_push, h, Array.pop_push, children_of_get? h]

/-- A reference on top of the stack is worked off, a round for each reference below it, before what
is under it on the stack. -/
theorem Unfolds.sweeps {o : Outline} (h : ast.Unfolds o) (found : Array Node)
    (rest : Array NodeId) :
    ast.sweep^[o.count] ⟨found, rest.push o.id⟩ = ⟨found ++ o.nodes, rest⟩ := by
  induction h generalizing found rest with
  | @missing id hid =>
    show ast.sweep ⟨found, rest.push id⟩ = ⟨found ++ [], rest⟩
    rw [sweep_missing hid, Array.appendList_nil]
  | @node n children hn hk hs ih =>
    have hall : ∀ found : Array Node,
        ast.sweep^[(children.map Outline.count).sum]
            ⟨found, rest ++ (children.map Outline.id).reverse⟩ =
          ⟨found ++ children.flatMap Outline.nodes, rest⟩ := by
      clear hk hs
      induction children with
      | nil =>
        intro found
        show (⟨found, rest ++ []⟩ : Sweep) = ⟨found ++ [], rest⟩
        rw [Array.appendList_nil, Array.appendList_nil]
      | cons o os ihos =>
        obtain ⟨ho, hos⟩ := List.forall_mem_cons.mp ih
        intro found
        have htop : rest ++ ((o :: os).map Outline.id).reverse =
            (rest ++ (os.map Outline.id).reverse).push o.id := by
          simp [← Array.toList_inj]
        rw [htop, List.map_cons, List.sum_cons, Nat.add_comm, Function.iterate_add_apply, ho,
          ihos hos, List.flatMap_cons, appendList_append]
    rw [Outline.count_node, Function.iterate_succ_apply, Outline.id, sweep_node hn, hk, hall,
      Outline.nodes_node, Array.appendList_cons]

/-- With nothing left to look at the loop is at its end. -/
theorem sweepFor_eq (ast : Ast) (rounds : Nat) (w : Sweep) :
    ast.sweepFor rounds w = (ast.sweep^[rounds] w).found := by
  induction rounds generalizing w with
  | zero => rfl
  | succ rounds ih =>
    rw [sweepFor, Function.iterate_succ_apply]
    split
    · next hempty =>
      have hfixed : ast.sweep w = w := by
        rw [sweep, Array.isEmpty_iff.mp hempty]
        rfl
      rw [hfixed, Function.iterate_fixed hfixed]
    · exact ih _

/-- After as many rounds as the outline has references there is nothing left to look at. -/
theorem Unfolds.sweeps_outline (h : ast.Unfolds (ast.outline root)) :
    ast.sweep^[(ast.outline root).count] { pending := #[root] } =
      ⟨(ast.outline root).nodes.toArray, #[]⟩ := by
  have hsweeps := h.sweeps #[] #[]
  rw [id_outline] at hsweeps
  simpa using hsweeps

theorem Unfolds.descendants_eq (h : ast.Unfolds (ast.outline root)) :
    ast.descendants root = (ast.outline root).nodes := by
  obtain ⟨more, hmore⟩ : ∃ more, Nat.pow (ast.references + 1) ast.size =
      (ast.outline root).count + more := Nat.exists_eq_add_of_le (ast.count_outline_le root)
  have hend : ast.sweep ⟨(ast.outline root).nodes.toArray, #[]⟩ =
      ⟨(ast.outline root).nodes.toArray, #[]⟩ := rfl
  rw [descendants, sweepFor_eq, hmore, Nat.add_comm, Function.iterate_add_apply, h.sweeps_outline,
    Function.iterate_fixed hend]

/-- The loop finds the live nodes of the outline in order. -/
theorem Acyclic.descendants_eq (h : ast.Acyclic root) :
    ast.descendants root = (ast.outline root).nodes := h.unfolds_outline.descendants_eq

theorem Acyclic.mem_descendants (h : ast.Acyclic root) {n : Node} :
    n ∈ ast.descendants root ↔ ∃ p ∈ ast.places root, p.node? = some n := by
  rw [h.descendants_eq, mem_nodes_outline]

theorem get?_of_mem_found {w : Sweep} (h : ∀ n ∈ w.found, ast.get? n.id = some n) {n : Node}
    (hn : n ∈ (ast.sweep w).found) : ast.get? n.id = some n := by
  unfold sweep at hn
  split at hn
  · exact h n hn
  · split at hn
    · exact h n hn
    · next m hm =>
      rcases Array.mem_push.mp hn with hn | rfl
      · exact h n hn
      · rwa [ast.id_eq _ n hm]

/-- Whatever the loop finds is there. -/
theorem get?_of_mem_descendants {n : Node} (hn : n ∈ ast.descendants root) :
    ast.get? n.id = some n := by
  have hall : ∀ (rounds : Nat) (w : Sweep), (∀ n ∈ w.found, ast.get? n.id = some n) →
      ∀ n ∈ (ast.sweep^[rounds] w).found, ast.get? n.id = some n := by
    intro rounds
    induction rounds with
    | zero => exact fun w h => h
    | succ rounds ih =>
      intro w h
      rw [Function.iterate_succ_apply]
      exact ih _ fun n hn => get?_of_mem_found h hn
  rw [descendants, sweepFor_eq, Array.mem_toList_iff] at hn
  exact hall _ _ (by simp) n hn

end Ast

end FlatScope
