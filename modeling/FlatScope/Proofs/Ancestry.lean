import Mathlib.Logic.Relation
import FlatScope.Proofs.Reissue
import FlatScope.Proofs.Traversals

/-!
# Trees that are built from the bottom up

A tree is built without rewiring (`Grown`) if every new node refers to nodes made before it, there
or gone, or to nothing. Neither the index nor the version of an id says when it was made: a new node
may take the very index that one of its dangling references names. But the order in which ids were
given out goes down from every node to those of its children that are there (`Dated.older`), so no
such tree has a circle, and what goes from nodes to their children comes to an end (`Founded`).
-/

namespace FlatScope

namespace Ast

/-- From a node to a child that is there. -/
def Refers (ast : Ast) (id child : NodeId) : Prop :=
  child ∈ ast.children id ∧ ∃ n, ast.get? child = some n

/-- Whatever goes from a node to its children ends, from any node. -/
structure Founded (ast : Ast) : Prop where
  /-- no node is below itself -/
  irrefl : ∀ id, ¬ Relation.TransGen ast.Refers id id
  acyclic : ∀ root, ast.Acyclic root
  /-- a recursion that calls itself on the children of a node, there or not, ends, -/
  wellFounded : WellFounded fun child id => child ∈ ast.children id
  /-- and its calls are the outline of the node where it starts: nothing is cut off -/
  outline_eq : ∀ id, ast.outline id =
    match ast.get? id with
    | none => .missing id
    | some n => .node n (n.kind.children.map ast.outline)
  /-- a visitor goes on to the children by visiting them -/
  visit_eq : ∀ (σ ε : Type) (v : Visitor σ ε) (id : NodeId), v.visit ast id =
    match ast.get? id with
    | none => v.around id none (v.missing id)
    | some n => v.around n.id (some n) (v.node n (Walk.below (v.visit ast) n.kind))
  /-- and so does a dump by writing them, one level down -/
  print_eq : ∀ (facts : Annotations) (colour : Bool) (depth : Nat) (id : NodeId) (p : Dump.Printer),
    Dump.print ast facts colour depth id p =
      match ast.get? id with
      | none => p.write colour (Dump.missingLine depth id)
      | some n => (ast.children id).foldl
          (fun p child => Dump.print ast facts colour (depth + 1) child p)
          (p.writeNode facts colour depth n)
  entries_eq : ∀ (depth : Nat) (id : NodeId), (ast.outline id).entries depth =
    match ast.get? id with
    | none => [(depth, id, none)]
    | some n => (depth, n.id, some n) ::
        n.kind.children.flatMap fun child => (ast.outline child).entries (depth + 1)
  /-- the loop that lists the descendants has nothing left to look at after some rounds -/
  swept : ∀ root, ∃ rounds,
    ast.sweep^[rounds] { pending := #[root] } = ⟨(ast.descendants root).toArray, #[]⟩

variable {ast : Ast}

theorem eq_of_map_id {os os' : List Outline}
    (h : ∀ o ∈ os, ∀ o', ast.Unfolds o' → o.id = o'.id → o = o') (hs : ∀ o' ∈ os', ast.Unfolds o')
    (hids : os.map Outline.id = os'.map Outline.id) : os = os' := by
  induction os generalizing os' with
  | nil => exact (List.map_eq_nil_iff.mp hids.symm).symm
  | cons o os ih =>
    cases os' with
    | nil => cases hids
    | cons o' os' =>
      obtain ⟨ho, hos⟩ := List.forall_mem_cons.mp h
      obtain ⟨ho', hos'⟩ := List.forall_mem_cons.mp hs
      obtain ⟨hhead, htail⟩ := List.cons.inj hids
      rw [ho o' ho' hhead, ih hos hos' htail]

/-- There is one way to unfold a reference. -/
theorem Unfolds.eq_of_id_eq {o o' : Outline} (h : ast.Unfolds o) (h' : ast.Unfolds o')
    (hid : o.id = o'.id) : o = o' := by
  induction h generalizing o' with
  | @missing id hnone =>
    cases h' with
    | missing hnone' =>
      obtain rfl : id = _ := hid
      rfl
    | @node n' children' hn' _ _ =>
      obtain rfl : id = n'.id := hid
      cases hnone.symm.trans hn'
  | @node n children hn hk hs ih =>
    cases h' with
    | missing hnone' =>
      obtain rfl : n.id = _ := hid
      cases hn.symm.trans hnone'
    | @node n' children' hn' hk' hs' =>
      have heq : n.id = n'.id := hid
      rw [heq, hn'] at hn
      obtain rfl := Option.some.inj hn
      rw [eq_of_map_id (fun o ho _ => ih o ho) hs' (hk.symm.trans hk')]

/-- Where no reference leads back the outline of a node is made of those of its children. -/
theorem outline_eq_of_acyclic (h : ∀ root, ast.Acyclic root) (id : NodeId) : ast.outline id =
    match ast.get? id with
    | none => .missing id
    | some n => .node n (n.kind.children.map ast.outline) := by
  refine (h id).unfolds_outline.eq_of_id_eq ?_ ?_
  · split
    · next hn => exact .missing hn
    · next n hn =>
      refine .node ((ast.id_eq id n hn).symm ▸ hn) ?_ fun o ho => ?_
      · have hids : Outline.id ∘ ast.outline = fun c => c := funext ast.id_outline
        rw [List.map_map, hids, List.map_id']
      · obtain ⟨child, -, rfl⟩ := List.mem_map.mp ho
        exact (h child).unfolds_outline
  · rw [id_outline]
    split
    · rfl
    · next n hn => exact (ast.id_eq id n hn).symm

/-- If something grows from children to their parents, whatever goes to the children ends. -/
theorem founded_of_lt {rank : NodeId → Nat}
    (h : ∀ id, ∀ child ∈ ast.children id, rank child < rank id) : ast.Founded := by
  have hacyclic : ∀ root, ast.Acyclic root := acyclic_of_lt rank h
  have houtline := outline_eq_of_acyclic hacyclic
  have hlt : ∀ id below, Relation.TransGen ast.Refers id below → rank below < rank id := by
    intro id below hpath
    induction hpath with
    | single hstep => exact h id _ hstep.1
    | tail _ hstep ih => exact Nat.lt_trans (h _ _ hstep.1) ih
  have hentries : ∀ (depth : Nat) (id : NodeId), (ast.outline id).entries depth =
      match ast.get? id with
      | none => [(depth, id, none)]
      | some n => (depth, n.id, some n) ::
          n.kind.children.flatMap fun child => (ast.outline child).entries (depth + 1) := by
    intro depth id
    rw [houtline id]
    split
    · rfl
    · rw [Outline.entries, Outline.entriesOfAll_eq_flatMap, List.flatMap_map]
  refine ⟨fun id hpath => Nat.lt_irrefl _ (hlt id id hpath), hacyclic, ?_, houtline, ?_, ?_,
    hentries, ?_⟩
  · exact Subrelation.wf (fun {child id} hc => h id child hc) (InvImage.wf rank Nat.lt_wfRel.wf)
  · intro σ ε v id
    rw [v.visit_eq, houtline id]
    split
    · rfl
    · rw [Visitor.visitTree, v.visitTrees_map, Walk.below_eq, funext (v.visit_eq ast)]
  · intro facts colour depth id p
    rw [Dump.print_eq, hentries]
    split
    · rfl
    · next n hn =>
      rw [List.foldl_cons, List.foldl_flatMap, children_of_get? hn]
      simp only [Dump.print_eq]
      rfl
  · intro root
    have hunfolds := (hacyclic root).unfolds_outline
    exact ⟨_, hunfolds.descendants_eq ▸ hunfolds.sweeps_outline⟩

end Ast

/--
What comes of a tree by adding and removing nodes, where new ones refer to those before them;
`given` are the ids given out, the latest last.
-/
inductive Grown : Ast → List NodeId → Prop where
  | start (source : Nat) : Grown (.empty source) []
  | add {ast : Ast} {given : List NodeId} (kind : NodeKind) (loc : Loc) : Grown ast given →
      (∀ child ∈ kind.children, child = .null ∨ child ∈ given) →
      Grown (ast.add kind loc).2 (given ++ [(ast.add kind loc).1])
  | remove {ast : Ast} {given : List NodeId} (id : NodeId) : Grown ast given →
      Grown (ast.remove id) given

/-- The ids were given out in this order, each node after its children. -/
structure Dated (ast : Ast) (given : List NodeId) : Prop where
  issued : ∀ id ∈ given, ast.nodes.Issued id
  mem : ∀ id n, ast.get? id = some n → id ∈ given
  older : ∀ id n, ast.get? id = some n → ∀ child ∈ n.kind.children, child = .null ∨
    given.idxOf child < given.idxOf id

namespace Dated

variable {ast : Ast} {given : List NodeId}

theorem start (source : Nat) : Dated (.empty source) [] where
  issued _ hid := by cases hid
  mem id n hn := by
    rw [show (Ast.empty source).get? id = none from Arena.get?_empty id] at hn
    cases hn
  older id n hn := by
    rw [show (Ast.empty source).get? id = none from Arena.get?_empty id] at hn
    cases hn

theorem add (h : Dated ast given) {kind : NodeKind}
    (hk : ∀ child ∈ kind.children, child = .null ∨ child ∈ given) (loc : Loc) :
    Dated (ast.add kind loc).2 (given ++ [(ast.add kind loc).1]) := by
  have hfresh : (ast.add kind loc).1 ∉ given := fun hmem =>
    ast.nodes.not_issued_insert_key _ (h.issued _ hmem)
  have hlast : (given ++ [(ast.add kind loc).1]).idxOf (ast.add kind loc).1 = given.length := by
    rw [List.idxOf_append_of_notMem hfresh, List.idxOf_cons_self, Nat.add_zero]
  refine ⟨fun id hid => ?_, fun id n hn => ?_, fun id n hn child hc => ?_⟩
  · rcases List.mem_append.mp hid with hid | hid
    · exact (h.issued id hid).mono (Arena.grows_insert _ _)
    · obtain rfl := List.mem_singleton.mp hid
      exact Arena.issued_insert_key _ _
  · rw [Ast.get?_add] at hn
    split at hn
    · next heq =>
      subst heq
      exact List.mem_append_right _ List.mem_cons_self
    · exact List.mem_append_left _ (h.mem id n hn)
  · rw [Ast.get?_add] at hn
    split at hn
    · next heq =>
      subst heq
      cases hn
      refine (hk child hc).imp_right fun hmem => ?_
      rw [hlast, List.idxOf_append_of_mem hmem]
      exact List.idxOf_lt_length_of_mem hmem
    · refine (h.older id n hn child hc).imp_right fun hlt => ?_
      have hid := h.mem id n hn
      have hchild : child ∈ given :=
        List.idxOf_lt_length_iff.mp (Nat.lt_trans hlt (List.idxOf_lt_length_of_mem hid))
      rwa [List.idxOf_append_of_mem hid, List.idxOf_append_of_mem hchild]

theorem remove (h : Dated ast given) (id : NodeId) : Dated (ast.remove id) given := by
  have hkept : ∀ other n, (ast.remove id).get? other = some n → ast.get? other = some n := by
    intro other n hn
    have hget : (ast.remove id).get? other = if other = id then none else ast.get? other :=
      Arena.get?_remove ast.nodes id other
    rw [hget] at hn
    split at hn
    · cases hn
    · exact hn
  exact ⟨fun other ho => (h.issued other ho).mono (Arena.grows_remove _ _),
    fun other n hn => h.mem other n (hkept other n hn),
    fun other n hn => h.older other n (hkept other n hn)⟩

/-- When a node was made; what is not there comes before all nodes. -/
def birth (ast : Ast) (given : List NodeId) (id : NodeId) : Nat :=
  match ast.get? id with
  | none => 0
  | some _ => given.idxOf id + 1

theorem birth_lt (h : Dated ast given) {id child : NodeId} (hc : child ∈ ast.children id) :
    birth ast given child < birth ast given id := by
  obtain ⟨n, hn, hmem⟩ := Ast.get?_eq_some_of_mem_children hc
  unfold birth
  rw [hn]
  cases hchild : ast.get? child with
  | none => exact Nat.succ_pos _
  | some m =>
    rcases h.older id n hn child hmem with rfl | hlt
    · cases hchild
    · exact Nat.succ_lt_succ hlt

end Dated

namespace Grown

variable {ast : Ast} {given : List NodeId}

theorem dated (h : Grown ast given) : Dated ast given := by
  induction h with
  | start source => exact .start source
  | add kind loc _ hk ih => exact ih.add hk loc
  | remove id _ ih => exact ih.remove id

theorem acyclic (h : Grown ast given) (root : NodeId) : ast.Acyclic root :=
  Ast.acyclic_of_lt (Dated.birth ast given) (fun _ _ hc => h.dated.birth_lt hc) root

/-- Removing nodes and using their indices again makes no circle. -/
theorem founded (h : Grown ast given) : ast.Founded :=
  Ast.founded_of_lt fun _ _ hc => h.dated.birth_lt hc

/-- A list that has taken the index of the statement in it, which was removed. -/
theorem founded_reissued : ∃ ast given, Grown ast given ∧ given = [.at 1 1, .at 1 3] ∧
    ast.children (.at 1 3) = [.at 1 1] ∧ ast.Founded := by
  have h : Grown _ _ := .add (.statements [.at 1 1]) ⟨0, 0, 0⟩
    (.remove (.at 1 1) (.add .brk ⟨0, 0, 0⟩ (.start 0) (by decide))) (by decide)
  exact ⟨_, _, h, by decide, by decide, founded h⟩

end Grown

end FlatScope
