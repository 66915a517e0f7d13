import FlatScope.Proofs.Places

/-!
# Visits as lists of events

A visitor keeps track of where it is in its state and puts that back behind every node. Told apart
from where it is, what it does is one thing after the other: `Follows v put keeps enter leave` says
that visitor `v`, in the state `put above t` below the nodes `above`, does `enter p` when it comes
to a place and `leave p` when it leaves a node. Visiting a tree is then going through its events one
by one up to the first failure (`Follows.visitTree_eq`). What is so whenever a place is come to,
`v.Always`, can therefore be shown place by place (`Follows.always`).
-/

namespace FlatScope

namespace Walk

variable {σ τ ε : Type}

/-- A walk on a part of the state, seen on the whole. -/
def onPart (put : τ → σ) (w : Walk τ ε) (t : τ) : Except ε Unit × σ := ((w t).1, put (w t).2)

theorem eq_of_fst {w : Walk σ ε} {s : σ} {result : Except ε Unit} (h : (w s).1 = result) :
    w s = (result, (w s).2) := Prod.ext h rfl

theorem andThen_of_ok {v w : Walk σ ε} {s s' : σ} (h : v s = (.ok (), s')) :
    (v.andThen w) s = w s' := by
  unfold andThen
  rw [h]

theorem andThen_of_error {v w : Walk σ ε} {s s' : σ} {e : ε} (h : v s = (.error e, s')) :
    (v.andThen w) s = (.error e, s') := by
  unfold andThen
  rw [h]

/-- What holds from before a walk to behind it holds for two in a row. -/
theorem andThen_relates {R : σ → σ → Prop} (trans : ∀ {s s' s''}, R s s' → R s' s'' → R s s'')
    {v w : Walk σ ε} {s : σ} (hv : R s (v s).2)
    (hw : ∀ s', v s = (.ok (), s') → R s' (w s').2) : R s ((v.andThen w) s).2 := by
  cases hvs : v s with
  | mk r s' =>
    rw [hvs] at hv
    cases r with
    | error e =>
      rw [andThen_of_error hvs]
      exact hv
    | ok _ =>
      rw [andThen_of_ok hvs]
      exact trans hv (hw s' hvs)

theorem andThen_assoc (u v w : Walk σ ε) : (u.andThen v).andThen w = u.andThen (v.andThen w) := by
  funext s
  cases hu : u s with
  | mk r s' =>
    cases r with
    | error e => rw [andThen_of_error hu, andThen_of_error (andThen_of_error hu)]
    | ok _ =>
      rw [andThen_of_ok hu]
      unfold andThen
      rw [hu]

/-- Looks at the state, and fails if something is wrong with it. -/
def check (test : σ → Except ε Unit) : Walk σ ε := fun s => (test s, s)

theorem check_andThen_of_ok {test : σ → Except ε Unit} {s : σ} (h : test s = .ok ())
    (w : Walk σ ε) : ((check test).andThen w) s = w s :=
  andThen_of_ok (Prod.ext h rfl)

/-- One event after the other, up to the first failure. -/
def through (enter leave : Place → Walk τ ε) : List Event → Walk τ ε
  | [] => done
  | .enter p :: es => (enter p).andThen (through enter leave es)
  | .leave p :: es => (leave p).andThen (through enter leave es)

theorem through_append (enter leave : Place → Walk τ ε) (es es' : List Event) :
    through enter leave (es ++ es') =
      (through enter leave es).andThen (through enter leave es') := by
  induction es with
  | nil => rfl
  | cons e es ih =>
    cases e with
    | enter p => rw [List.cons_append, through, through, ih, andThen_assoc]
    | leave p => rw [List.cons_append, through, through, ih, andThen_assoc]

/-- A run that succeeds can be cut anywhere. -/
theorem exists_of_through_append {enter leave : Place → Walk τ ε} {es es' : List Event} {t t' : τ}
    (h : through enter leave (es ++ es') t = (.ok (), t')) :
    ∃ between, through enter leave es t = (.ok (), between) ∧
      through enter leave es' between = (.ok (), t') := by
  rw [through_append] at h
  cases hes : through enter leave es t with
  | mk r between =>
    cases r with
    | error e =>
      rw [andThen_of_error hes] at h
      cases h
    | ok _ =>
      rw [andThen_of_ok hes] at h
      exact ⟨between, rfl, h⟩

/-- Whatever the result, this part of the state is behind the walk what it was before. -/
def Restores {ρ : Type} (part : σ → ρ) (w : Walk σ ε) : Prop := ∀ s, part (w s).2 = part s

section

variable {ρ : Type} {part : σ → ρ} {v w : Walk σ ε}

theorem restores_done : Restores part (done : Walk σ ε) := fun _ => rfl

theorem restores_fail (e : ε) : Restores part (fail e) := fun _ => rfl

theorem Restores.andThen (hv : v.Restores part) (hw : w.Restores part) :
    (v.andThen w).Restores part := by
  intro s
  have ht := hv s
  cases hvs : v s with
  | mk r t =>
    rw [hvs] at ht
    cases r with
    | error e =>
      rw [andThen_of_error hvs]
      exact ht
    | ok _ =>
      rw [andThen_of_ok hvs]
      exact (hw t).trans ht

end

/-- What holds from before each single step to behind it holds from before them all, -/
theorem through_relates {R : τ → τ → Prop} {enter leave : Place → Walk τ ε} {es : List Event}
    (refl : ∀ t, R t t) (trans : ∀ {t t' t''}, R t t' → R t' t'' → R t t'')
    (henter : ∀ p, .enter p ∈ es → ∀ t, R t (enter p t).2)
    (hleave : ∀ p, .leave p ∈ es → ∀ t, R t (leave p t).2) (t : τ) :
    R t (through enter leave es t).2 := by
  induction es generalizing t with
  | nil => exact refl t
  | cons e es ih =>
    have hrest := ih (fun p hp => henter p (List.mem_cons_of_mem _ hp))
      fun p hp => hleave p (List.mem_cons_of_mem _ hp)
    cases e with
    | enter p =>
      exact andThen_relates (R := R) trans (henter p List.mem_cons_self t) fun t' _ => hrest t'
    | leave p =>
      exact andThen_relates (R := R) trans (hleave p List.mem_cons_self t) fun t' _ => hrest t'

/-- and what no single step changes stays. -/
theorem through_frame {β : Type} (part : τ → β) {enter leave : Place → Walk τ ε} {es : List Event}
    (henter : ∀ p, .enter p ∈ es → ∀ t, part (enter p t).2 = part t)
    (hleave : ∀ p, .leave p ∈ es → ∀ t, part (leave p t).2 = part t) (t : τ) :
    part (through enter leave es t).2 = part t :=
  through_relates (R := fun t t' => part t' = part t) (fun _ => rfl) (fun h h' => h'.trans h)
    henter hleave t

/-- One place after the other, up to the first failure. -/
def each (act : Place → Walk τ ε) : List Place → Walk τ ε
  | [] => done
  | p :: ps => (act p).andThen (each act ps)

theorem each_append (act : Place → Walk τ ε) (ps ps' : List Place) :
    each act (ps ++ ps') = (each act ps).andThen (each act ps') := by
  induction ps with
  | nil => rfl
  | cons p ps ih => rw [List.cons_append, each, each, ih, andThen_assoc]

/-- Tests that are passed wherever the run comes to change nothing. -/
theorem each_check {test : Place → τ → Except ε Unit} {act : Place → Walk τ ε} {ps : List Place}
    {t : τ} (h : ∀ before p after t', ps = before ++ p :: after →
      each act before t = (.ok (), t') → test p t' = .ok ()) :
    each (fun p => (check (test p)).andThen (act p)) ps t = each act ps t := by
  induction ps generalizing t with
  | nil => rfl
  | cons p ps ih =>
    have hfirst := check_andThen_of_ok (h [] p ps t rfl rfl) (act p)
    rw [each, each]
    cases hp : act p t with
    | mk r t' =>
      rw [hp] at hfirst
      cases r with
      | error e => rw [andThen_of_error hfirst, andThen_of_error hp]
      | ok _ =>
        rw [andThen_of_ok hfirst, andThen_of_ok hp]
        refine ih fun before q after t'' hsplit hrun => ?_
        refine h (p :: before) q after t'' (congrArg _ hsplit) ?_
        rwa [each, andThen_of_ok hp]

/-- If nothing is done on leaving a node, only the places matter. -/
theorem through_done (act : Place → Walk τ ε) (es : List Event) :
    through act (fun _ => done) es = each act (es.filterMap Event.entered?) := by
  induction es with
  | nil => rfl
  | cons e es ih =>
    cases e with
    | enter p =>
      rw [through, ih]
      rfl
    | leave p => exact ih

end Walk

namespace Visitor

variable {σ τ ε : Type}

section

variable {v : Visitor σ ε} {Q : Walk σ ε → Prop} {os : List Outline}

theorem visitTrees_induct (done : Q Walk.done)
    (andThen : ∀ u w : Walk σ ε, Q u → Q w → Q (u.andThen w)) (h : ∀ o ∈ os, Q (v.visitTree o)) :
    Q (v.visitTrees os) := by
  induction os with
  | nil => exact done
  | cons o os ih =>
    obtain ⟨ho, hos⟩ := List.forall_mem_cons.mp h
    exact andThen _ _ ho (ih hos)

/-- A visit has any property that the steps have and keep. -/
theorem visitTree_induct (done : Q Walk.done)
    (andThen : ∀ u w : Walk σ ε, Q u → Q w → Q (u.andThen w))
    (missing : ∀ id, Q (v.around id none (v.missing id))) (o : Outline)
    (node : ∀ n ∈ o.nodes, ∀ below, Q below → Q (v.around n.id (some n) (v.node n below))) :
    Q (v.visitTree o) := by
  induction o with
  | missing id => exact missing id
  | node n children ih =>
    rw [Outline.nodes_node, List.forall_mem_cons] at node
    obtain ⟨hn, hbelow⟩ := node
    refine hn _ (visitTrees_induct done andThen fun o ho => ih o ho fun m hm => hbelow m ?_)
    exact List.mem_flatMap.mpr ⟨o, ho, hm⟩

end

section

variable (v : Visitor σ ε) (test : Place → σ → Except ε Unit)

mutual

/-- The visit with a test at every place that it comes to, before anything is done there. -/
def visitTesting (path : List Nat) (above : List Spot) : Outline → Walk σ ε
  | .missing id =>
    (Walk.check (test ⟨path, above, id, none⟩)).andThen (v.around id none (v.missing id))
  | .node n children =>
    (Walk.check (test ⟨path, above, n.id, some n⟩)).andThen (v.around n.id (some n)
      (v.node n (visitAllTesting path (⟨path, n⟩ :: above) 0 children)))

/-- The children of `path` from number `i` on. -/
def visitAllTesting (path : List Nat) (above : List Spot) (i : Nat) : List Outline → Walk σ ε
  | [] => Walk.done
  | o :: os =>
    (visitTesting (path ++ [i]) above o).andThen (visitAllTesting path above (i + 1) os)

end

/-- A test that nothing fails is as good as none. -/
theorem visitTesting_ok (path : List Nat) (above : List Spot) (o : Outline) :
    v.visitTesting (fun _ _ => .ok ()) path above o = v.visitTree o := by
  induction o generalizing path above with
  | missing id => rfl
  | node n children ih =>
    have hall : ∀ (i : Nat) (above : List Spot),
        v.visitAllTesting (fun _ _ => .ok ()) path above i children = v.visitTrees children := by
      induction children with
      | nil => exact fun _ _ => rfl
      | cons o os ihos =>
        obtain ⟨ho, hos⟩ := List.forall_mem_cons.mp ih
        intro i above
        rw [visitAllTesting, visitTrees, ho, ihos hos]
    rw [visitTesting, visitTree, hall]
    rfl

end

/-- At every place that the visit comes to, `P` is so of the state: it passes any test for `P`
without being stopped. -/
def Always (v : Visitor σ ε) (P : Place → σ → Prop) (ast : Ast) (root : NodeId) (s : σ) : Prop :=
  ∀ test : Place → σ → Except ε Unit, (∀ p t, P p t → test p t = .ok ()) →
    v.visitTesting test [] [] (ast.outline root) s = v.visit ast root s

/--
What `v` does in the state `put above t`. It keeps to itself what is above: `keeps above t t'` says
that nothing in the step from `t` to `t'` touches what `put above` shows of the nodes above.
-/
structure Follows (v : Visitor σ ε) (put : List Spot → τ → σ) (keeps : List Spot → τ → τ → Prop)
    (enter leave : Place → Walk τ ε) : Prop where
  refl : ∀ above t, keeps above t t
  trans : ∀ {above t t' t''}, keeps above t t' → keeps above t' t'' → keeps above t t''
  tail : ∀ {s above t t'}, keeps (s :: above) t t' → keeps above t t'
  enter_keeps : ∀ (p : Place) t, (∀ s ∈ p.above, s.path ≠ p.path) → keeps p.above t (enter p t).2
  leave_keeps : ∀ (p : Place) t, keeps p.above t (leave p t).2
  missing : ∀ (p : Place) t, p.node? = none →
    v.around p.id none (v.missing p.id) (put p.above t) = (enter p).onPart (put p.above) t
  /-- where reading failed there is nothing below -/
  error : ∀ (p : Place) n below t, p.node? = some n → n.kind = .error → p.id = n.id →
    (∀ s ∈ p.above, s.path ≠ p.path) →
    v.around n.id (some n) (v.node n below) (put p.above t) =
      ((enter p).andThen (leave p)).onPart (put p.above) t
  node : ∀ (p : Place) n below inner t, p.node? = some n → n.kind ≠ .error → p.id = n.id →
    (∀ s ∈ p.above, s.path ≠ p.path) →
    (∀ t, below (put (⟨p.path, n⟩ :: p.above) t) =
      Walk.onPart (put (⟨p.path, n⟩ :: p.above)) inner t) →
    (∀ t, keeps (⟨p.path, n⟩ :: p.above) t (inner t).2) →
    v.around n.id (some n) (v.node n below) (put p.above t) =
      ((enter p).andThen (inner.andThen (leave p))).onPart (put p.above) t

variable {v : Visitor σ ε} {put : List Spot → τ → σ} {keeps : List Spot → τ → τ → Prop}
  {enter leave : Place → Walk τ ε} {ast : Ast} {o : Outline} {path : List Nat} {above : List Spot}

theorem Follows.andThen_keeps (h : Follows v put keeps enter leave) {u w : Walk τ ε} {t : τ}
    (hu : keeps above t (u t).2) (hw : ∀ t, keeps above t (w t).2) :
    keeps above t ((u.andThen w) t).2 :=
  Walk.andThen_relates (R := keeps above) h.trans hu fun t' _ => hw t'

/-- Two visits in a row are two walks in a row. -/
theorem andThen_onPart {u w : Walk σ ε} {u' w' : Walk τ ε} {put : τ → σ} {t : τ}
    (hu : u (put t) = u'.onPart put t) (hw : ∀ t, w (put t) = w'.onPart put t) :
    (u.andThen w) (put t) = (u'.andThen w').onPart put t := by
  unfold Walk.onPart at hu
  unfold Walk.onPart
  cases hut : u' t with
  | mk r t' =>
    rw [hut] at hu
    cases r with
    | error e => rw [Walk.andThen_of_error hu, Walk.andThen_of_error hut]
    | ok _ =>
      rw [Walk.andThen_of_ok hu, Walk.andThen_of_ok hut, hw]
      rfl

theorem check_onPart (put : List Spot → τ → σ) (test : Place → σ → Except ε Unit) (p : Place)
    (t : τ) : Walk.check (test p) (put p.above t) =
      (Walk.check fun t => test p (put p.above t)).onPart (put p.above) t := rfl

/-- A test of the whole state before a step. -/
def tested (put : List Spot → τ → σ) (test : Place → σ → Except ε Unit)
    (enter : Place → Walk τ ε) (p : Place) : Walk τ ε :=
  (Walk.check fun t => test p (put p.above t)).andThen (enter p)

/-- The children of `path` in order, from number `i` on. -/
theorem Follows.visitAllTesting_eq (h : Follows v put keeps enter leave)
    (test : Place → σ → Except ε Unit) {os : List Outline}
    (each : ∀ o ∈ os, ∀ (i : Nat) (t : τ),
      v.visitTesting test (path ++ [i]) above o (put above t) =
          (Walk.through (tested put test enter) leave (o.events (path ++ [i]) above)).onPart
            (put above) t ∧
        keeps above t
          (Walk.through (tested put test enter) leave (o.events (path ++ [i]) above) t).2)
    (i : Nat) (t : τ) :
    v.visitAllTesting test path above i os (put above t) =
        (Walk.through (tested put test enter) leave (Outline.eventsOfAll path above i os)).onPart
          (put above) t ∧
      keeps above t
        (Walk.through (tested put test enter) leave (Outline.eventsOfAll path above i os) t).2 := by
  induction os generalizing i t with
  | nil => exact ⟨rfl, h.refl above t⟩
  | cons o os ih =>
    obtain ⟨ho, hos⟩ := List.forall_mem_cons.mp each
    rw [Visitor.visitAllTesting, Outline.eventsOfAll, Walk.through_append]
    exact ⟨andThen_onPart (ho i t).1 fun t => (ih hos (i + 1) t).1,
      h.andThen_keeps (ho i t).2 fun t => (ih hos (i + 1) t).2⟩

/-- Visiting a tree and testing is going through its events and testing. -/
theorem Follows.visitTesting_eq (h : Follows v put keeps enter leave)
    (test : Place → σ → Except ε Unit) (ho : ast.Unfolds o)
    (hdeep : ∀ s ∈ above, s.path.length < path.length) (t : τ) :
    v.visitTesting test path above o (put above t) =
        (Walk.through (tested put test enter) leave (o.events path above)).onPart (put above) t ∧
      keeps above t (Walk.through (tested put test enter) leave (o.events path above) t).2 := by
  have deeper : ∀ {path : List Nat} {above : List Spot},
      (∀ s ∈ above, s.path.length < path.length) → ∀ s ∈ above, s.path ≠ path :=
    fun hdeep s hs heq => absurd (hdeep s hs) (by rw [heq]; exact Nat.lt_irrefl _)
  induction ho generalizing path above t with
  | @missing id hid =>
    rw [Visitor.visitTesting, Outline.events, Walk.through, Walk.through, Walk.andThen_done]
    let p : Place := ⟨path, above, id, none⟩
    exact ⟨andThen_onPart (check_onPart put test p t) fun t => h.missing p t rfl,
      h.andThen_keeps (h.refl above t) fun t => h.enter_keeps p t (deeper hdeep)⟩
  | @node n children hn hk hs ih =>
    have hbelow : ∀ s ∈ (⟨path, n⟩ :: above : List Spot), ∀ i : Nat,
        s.path.length < (path ++ [i]).length := by
      intro s hs i
      rw [List.length_append, List.length_singleton]
      rcases List.mem_cons.mp hs with rfl | hs
      · exact Nat.lt_succ_self _
      · exact Nat.lt_succ_of_lt (hdeep s hs)
    have hall := h.visitAllTesting_eq test fun o ho i t =>
      ih o ho (fun s hs => hbelow s hs i) t
    rw [Visitor.visitTesting, Outline.events, Walk.through, Walk.through_append]
    let p : Place := ⟨path, above, n.id, some n⟩
    have hlast : Walk.through (tested put test enter) leave [.leave p] = leave p :=
      Walk.andThen_done _
    rw [hlast, tested, Walk.andThen_assoc]
    refine ⟨andThen_onPart (check_onPart put test p t) fun t => ?_,
      h.andThen_keeps (h.refl above t) fun t =>
        h.andThen_keeps (h.enter_keeps p t (deeper hdeep)) fun t =>
          h.andThen_keeps (h.tail (hall 0 t).2) (h.leave_keeps p)⟩
    by_cases herror : n.kind = .error
    · obtain rfl : children = [] := by
        rw [herror] at hk
        exact List.map_eq_nil_iff.mp hk.symm
      exact h.error p n _ t rfl herror rfl (deeper hdeep)
    · exact h.node p n _ _ t rfl herror rfl (deeper hdeep) (fun t => (hall 0 t).1)
        fun t => (hall 0 t).2

/-- Visiting a tree is going through its events. -/
theorem Follows.visitTree_eq (h : Follows v put keeps enter leave) (ho : ast.Unfolds o)
    (hdeep : ∀ s ∈ above, s.path.length < path.length) (t : τ) :
    v.visitTree o (put above t) =
        (Walk.through enter leave (o.events path above)).onPart (put above) t ∧
      keeps above t (Walk.through enter leave (o.events path above) t).2 := by
  have hvisit := h.visitTesting_eq (fun _ _ => .ok ()) ho hdeep t
  rwa [visitTesting_ok] at hvisit

/-- Visiting from the top on, for a state that `put` shows below no node. -/
theorem Follows.visit_outline (h : Follows v put keeps enter leave) {root : NodeId}
    (ho : ast.Unfolds (ast.outline root)) (t : τ) :
    v.visit ast root (put [] t) =
      (Walk.through enter leave ((ast.outline root).events [] [])).onPart (put []) t :=
  (congrFun (v.visit_eq ast root) _).trans (h.visitTree_eq ho (by simp) t).1

section

variable {act : Place → Walk τ ε} {root : NodeId} {P : Place → σ → Prop} {t : τ}

/-- The same if nothing is done on leaving a node. -/
theorem Follows.visitTesting_outline (h : Follows v put keeps act fun _ => Walk.done)
    (ho : ast.Unfolds (ast.outline root)) (test : Place → σ → Except ε Unit) (t : τ) :
    v.visitTesting test [] [] (ast.outline root) (put [] t) =
      (Walk.each (tested put test act) (ast.places root)).onPart (put []) t := by
  have htop : ∀ s ∈ ([] : List Spot), s.path.length < ([] : List Nat).length := by simp
  have htested := (h.visitTesting_eq test ho htop t).1
  rwa [Walk.through_done] at htested

/-- What is so at each place that the run comes to is so always. -/
theorem Follows.always (h : Follows v put keeps act fun _ => Walk.done)
    (ho : ast.Unfolds (ast.outline root))
    (hP : ∀ before p after t', ast.places root = before ++ p :: after →
      Walk.each act before t = (.ok (), t') → P p (put p.above t')) :
    v.Always P ast root (put [] t) := by
  intro test htest
  have hsame : Walk.each (tested put test act) (ast.places root) t =
      Walk.each act (ast.places root) t := by
    apply Walk.each_check
    intro before p after t' hsplit hrun
    exact htest _ _ (hP before p after t' hsplit hrun)
  rw [h.visitTesting_outline ho, h.visit_outline ho, Walk.through_done]
  exact congrArg (fun r => (r.1, put [] r.2)) hsame

end

end Visitor

end FlatScope
