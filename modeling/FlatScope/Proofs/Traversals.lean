import FlatScope.Proofs.Descending
import FlatScope.Proofs.Labels

/-!
# Three traversals

A visitor goes by the order that `Walk.below` has for each kind of node, `Ast.descendants` is a loop
with a stack onto which children are pushed last first, and a dump calls itself on the children of a
node. All three meet the places below a top (`ast.places`) in the same order: `Traversed ast root
ps` says so of a list `ps`. A visitor whose hooks fail stops at the place where that happens.
-/

namespace FlatScope

/-! ## What a visitor comes to -/

namespace Visitor

variable {σ ε : Type}

/-- Does a walk beside a list of notes. -/
def beside (w : Walk σ ε) : Walk (List NodeId × σ) ε := fun s => ((w s.2).1, s.1, (w s.2).2)

def note (id : NodeId) : Walk (List NodeId × σ) ε := Walk.modify fun s => (s.1 ++ [id], s.2)

/-- A plain visitor that notes every reference it is sent to. -/
def noting (missing : NodeId → Walk σ ε) (error : Loc → Walk σ ε) :
    Visitor (List NodeId × σ) ε :=
  { plain (fun id => beside (missing id)) (fun loc => beside (error loc)) with
    around id _ below := (note id).andThen below }

/-- What happens at a place. -/
def hook (missing : NodeId → Walk σ ε) (error : Loc → Walk σ ε) (p : Place) : Walk σ ε :=
  match p.node? with
  | none => missing p.id
  | some n => if n.kind = .error then error n.loc else Walk.done

/-- What happens at a place, with the note. -/
def noted (missing : NodeId → Walk σ ε) (error : Loc → Walk σ ε) (p : Place) :
    Walk (List NodeId × σ) ε :=
  (note p.id).andThen (beside (hook missing error p))

variable (missing : NodeId → Walk σ ε) (error : Loc → Walk σ ε)

theorem plain_node_of_error {n : Node} (h : n.kind = .error) (below : Walk σ ε) :
    (plain missing error).node n below = error n.loc := by
  simp only [plain, h]

theorem plain_node_of_read {n : Node} (h : n.kind ≠ .error) (below : Walk σ ε) :
    (plain missing error).node n below = below := by
  simp only [plain]

theorem hook_of_error {p : Place} {n : Node} (hp : p.node? = some n) (hn : n.kind = .error) :
    hook missing error p = error n.loc := by
  unfold hook
  rw [hp]
  exact if_pos hn

theorem hook_of_read {p : Place} {n : Node} (hp : p.node? = some n) (hn : n.kind ≠ .error) :
    hook missing error p = Walk.done := by
  unfold hook
  rw [hp]
  exact if_neg hn

theorem follows_noting : Follows (noting missing error) (fun _ s => s) (fun _ _ _ => True)
    (noted missing error) (fun _ => Walk.done) where
  refl _ _ := trivial
  trans _ _ := trivial
  tail _ := trivial
  enter_keeps _ _ _ := trivial
  leave_keeps _ _ := trivial
  missing p s hp := by
    unfold noted hook
    rw [hp]
    rfl
  error p n below s hp hn hid _ := by
    rw [Walk.andThen_done, noted, hook_of_error missing error hp hn, hid]
    show (note n.id).andThen ((plain (fun id => beside (missing id)) fun loc =>
      beside (error loc)).node n below) s = _
    rw [plain_node_of_error _ _ hn]
    rfl
  node p n below inner s hp hn hid _ hbelow _ := by
    rw [Walk.andThen_done, noted, hook_of_read missing error hp hn, hid]
    show (note n.id).andThen ((plain (fun id => beside (missing id)) fun loc =>
      beside (error loc)).node n below) s = _
    rw [plain_node_of_read _ _ hn, show below = inner from funext hbelow]
    rfl

/-- Visiting a tree is noting its places one by one. -/
theorem visit_noting {ast : Ast} {root : NodeId} (h : ast.Unfolds (ast.outline root))
    (s : List NodeId × σ) : (noting missing error).visit ast root s =
      Walk.each (noted missing error) (ast.places root) s := by
  have hvisit := (follows_noting missing error).visit_outline h s
  rw [Walk.through_done] at hvisit
  exact hvisit

theorem noted_eq (p : Place) (ids : List NodeId) (s : σ) :
    noted missing error p (ids, s) =
      ((hook missing error p s).1, ids ++ [p.id], (hook missing error p s).2) := rfl

/-- As long as no hook fails all places are noted. -/
theorem each_noted_of_ok {ps : List Place} {s s' : σ} (ids : List NodeId)
    (h : Walk.each (hook missing error) ps s = (.ok (), s')) :
    Walk.each (noted missing error) ps (ids, s) = (.ok (), ids ++ ps.map (·.id), s') := by
  induction ps generalizing ids s with
  | nil =>
    cases h
    rw [List.map_nil, List.append_nil]
    rfl
  | cons p ps ih =>
    rw [Walk.each] at h ⊢
    cases hp : hook missing error p s with
    | mk r s₁ =>
      cases r with
      | error e =>
        rw [Walk.andThen_of_error hp] at h
        cases h
      | ok _ =>
        rw [Walk.andThen_of_ok hp] at h
        have hnoted := noted_eq missing error p ids s
        rw [hp] at hnoted
        rw [Walk.andThen_of_ok hnoted, ih (ids ++ [p.id]) h, List.map_cons, List.append_assoc,
          List.singleton_append]

end Visitor

/-! ## A dump -/

namespace Dump

/-- Only the entry of a dangling reference says that something is missing. -/
theorem fst_ne_missing {facts : Annotations} {pools : List PoolId} {n : Node}
    {part : Part × String} (h : part ∈ nodeParts facts pools n) : part.1 ≠ .missing := by
  simp only [nodeParts, List.mem_cons, List.mem_append, Option.mem_toList,
    Option.map_eq_some_iff] at h
  rcases h with rfl | (⟨_, -, rfl⟩ | ⟨_, -, rfl⟩) | ⟨_, -, rfl⟩ <;> simp

end Dump

/-! ## The traversals agree -/

/-- The list is what every traversal from the top on goes through. -/
structure Traversed (ast : Ast) (root : NodeId) (ps : List Place) : Prop where
  /-- it holds the end of every path once, smaller paths first -/
  ends : ∀ path id, (∃ p ∈ ps, p.path = path ∧ p.id = id) ↔ ast.at? root path = some id
  sorted : ps.Pairwise fun p q => p.path < q.path
  node?_eq : ∀ p ∈ ps, p.node? = ast.get? p.id
  /-- a visitor whose hooks do not fail is sent to all of them, -/
  visited : ∀ (σ ε : Type) (missing : NodeId → Walk σ ε) (error : Loc → Walk σ ε) (s s' : σ),
    Walk.each (Visitor.hook missing error) ps s = (.ok (), s') →
      (Visitor.noting missing error).visit ast root ([], s) =
        (.ok (), ps.map (·.id), s')
  /-- and one with a hook that fails to those up to the place where it does -/
  stopped : ∀ (σ ε : Type) (missing : NodeId → Walk σ ε) (error : Loc → Walk σ ε)
    (before after : List Place) (p : Place) (s s' s'' : σ) (e : ε), ps = before ++ p :: after →
      Walk.each (Visitor.hook missing error) before s = (.ok (), s') →
        Visitor.hook missing error p s' = (.error e, s'') →
          (Visitor.noting missing error).visit ast root ([], s) =
            (.error e, (before ++ [p]).map (·.id), s'')
  descended : (ast.descendants root).map (·.id) =
    (ps.map (·.id)).filter fun id => (ast.get? id).isSome
  /-- the loop that lists the descendants is through with them when it ends -/
  swept : ∃ rounds,
    ast.sweep^[rounds] { pending := #[root] } = ⟨(ast.descendants root).toArray, #[]⟩
  /-- a dump has one line for each, and tells the dangling ones from the others -/
  dumped : ∀ facts colour, ∃ parts : Place → List (Dump.Part × String),
    ast.dump facts colour root = String.join (ps.map fun p =>
      String.ofList (List.replicate (2 * p.path.length) ' ') ++
        String.intercalate " " ((parts p).map (Dump.paint colour)) ++ "\n") ∧
    (∀ p ∈ ps, p.node? = none → parts p = [(.missing, "<missing " ++ p.id.text ++ ">")]) ∧
    ∀ p ∈ ps, ∀ n, p.node? = some n →
      (parts p).head? = some (.kind, n.kind.name) ∧ ∀ part ∈ parts p, part.1 ≠ .missing

namespace Ast

variable {ast : Ast} {root : NodeId}

theorem Unfolds.map_id_nodes (h : ast.Unfolds (ast.outline root)) :
    (ast.descendants root).map (·.id) =
      ((ast.places root).map (·.id)).filter fun id => (ast.get? id).isSome := by
  rw [h.descendants_eq, places, ← Outline.filterMap_node?_places [] [] (ast.outline root),
    List.map_filterMap, ← List.filterMap_eq_filter, List.filterMap_map]
  refine List.filterMap_congr fun p hp => ?_
  have hnode := h.node?_eq hp
  simp only [Function.comp_apply, hnode]
  cases hid : ast.get? p.id with
  | none => simp [Option.guard, hid]
  | some n => simp [Option.guard, hid, ast.id_eq p.id n hid]

/-- A visitor, the loop that lists the descendants, and a dump meet the same references. -/
theorem traversals_agree (h : ast.Acyclic root) : Traversed ast root (ast.places root) := by
  have hout := h.unfolds_outline
  refine ⟨fun path id => h.mem_places_iff, Outline.pairwise_places _ _ _,
    fun p hp => hout.node?_eq hp, ?_, ?_, hout.map_id_nodes, ?_, ?_⟩
  · intro σ ε missing error s s' hooks
    rw [Visitor.visit_noting missing error hout]
    exact Visitor.each_noted_of_ok missing error [] hooks
  · intro σ ε missing error before after p s s' s'' e hsplit hbefore hp
    have hnoted := Visitor.noted_eq missing error p (before.map (·.id)) s'
    rw [hp] at hnoted
    rw [Visitor.visit_noting missing error hout, hsplit, Walk.each_append,
      Walk.andThen_of_ok (Visitor.each_noted_of_ok missing error [] hbefore), Walk.each,
      List.nil_append, Walk.andThen_of_error hnoted, List.map_append]
    rfl
  · exact ⟨_, hout.descendants_eq ▸ hout.sweeps_outline⟩
  · intro facts colour
    refine ⟨Dump.placeParts facts (Dump.poolsOf facts (ast.outline root).nodes), ?_, ?_, ?_⟩
    · rw [dump_eq, Dump.lines_eq, List.map_map]
      rfl
    · intro p _ hp
      unfold Dump.placeParts
      rw [hp]
    · intro p _ n hp
      unfold Dump.placeParts
      rw [hp]
      exact ⟨rfl, fun part hpart => Dump.fst_ne_missing hpart⟩

/-- A list that holds one statement twice and a reference to nothing. -/
theorem traversals_agree_shared : ∃ ast : Ast, ∃ root : NodeId,
    ast.Acyclic root ∧ (ast.places root).length = 4 ∧ Traversed ast root (ast.places root) := by
  let ast := (((empty 0).add .brk ⟨0, 1, 6⟩).2.add
    (.statements [.at 1 1, .at 1 1, .null]) ⟨0, 0, 7⟩).2
  have hacyclic : ast.Acyclic (.at 2 1) :=
    (((rising_empty 0).add (by decide)).add (by decide)).acyclic _
  exact ⟨ast, .at 2 1, hacyclic, rfl, traversals_agree hacyclic⟩

end Ast

end FlatScope
