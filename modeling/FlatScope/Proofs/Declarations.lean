import FlatScope.Proofs.Functions

/-!
# Declarations in scopes

In a tree that stands for a program the names declared in the scope of a function are those of its
parameters and of the declarations in its body (`Declares.declaredIn_eq`), and none is declared
outside of functions (`Shows.declaredIn_eq_nil`). Both are read off the tree below the place of the
scope, which holds all places of that scope (`Shows.exists_declaredIn_eq`).
-/

namespace FlatScope

/-- The path to the nearest scope of these nodes, the nearest first. -/
def scopeOf (above : List Spot) : Option (List Nat) := (above.find? Spot.opens).map (·.path)

variable {o : Outline} {os : List Outline} {path scope : List Nat} {above : List Spot} {n : Node}
  {x : Piece}

theorem scopeOf_cons_of_opens (h : n.kind.opensScope = true) :
    scopeOf (⟨path, n⟩ :: above) = some path := by
  unfold scopeOf
  rw [List.find?_cons_of_pos (show Spot.opens ⟨path, n⟩ = true from h)]
  rfl

theorem scopeOf_cons_of_inner (h : n.kind.opensScope = false) :
    scopeOf (⟨path, n⟩ :: above) = scopeOf above := by
  unfold scopeOf
  rw [List.find?_cons_of_neg (by simpa [Spot.opens] using h)]

/-- Nothing is declared by a unit or a function for the scope around it. -/
theorem NodeKind.declared_of_opens {kind : NodeKind} {parts : List Piece}
    (h : kind.assemble parts = some x) (hopens : kind.opensScope = true) : x.declared = [] := by
  cases kind with
  | compUnit items =>
    obtain ⟨ds, -, rfl⟩ := Option.map_eq_some_iff.mp h
    rfl
  | function ty name ps body =>
    obtain ⟨f, -, rfl, -⟩ := NodeKind.function_of_assemble h
    rfl
  | _ => cases hopens

theorem NodeKind.naming_declared?_of_opens {kind : NodeKind} (h : kind.opensScope = true) :
    kind.naming.declared? = none := by
  cases kind <;> first | rfl | cases h

/-- A unit or a function is no declaration itself. -/
theorem declaredIn?_of_opens (h : n.kind.opensScope = true) :
    Place.declaredIn? scope ⟨path, above, n.id, some n⟩ = none := by
  unfold Place.declaredIn? Place.declared?
  rw [Option.bind_some, NodeKind.naming_declared?_of_opens h, ite_self]

namespace Outline

/-- The names declared at the places of these trees for a scope around them. -/
theorem filterMap_declaredIn_of_each {parts : List Piece} {i : Nat}
    (hparts : os.map piece? = parts.map some)
    (each : ∀ o ∈ os, ∀ x path, o.piece? = some x → (∀ p ∈ o.places path above, p.path ≠ scope) →
      (o.places path above).filterMap (Place.declaredIn? scope) =
        if scopeOf above = some scope then x.declared else [])
    (hne : ∀ p ∈ placesOfAll path above i os, p.path ≠ scope) :
    (placesOfAll path above i os).filterMap (Place.declaredIn? scope) =
      if scopeOf above = some scope then parts.flatMap Piece.declared else [] := by
  induction os generalizing parts i with
  | nil =>
    cases parts with
    | nil => exact (ite_self _).symm
    | cons part parts => cases hparts
  | cons o os ih =>
    cases parts with
    | nil => cases hparts
    | cons part parts =>
      obtain ⟨ho, hos⟩ := List.cons.inj hparts
      obtain ⟨each, eachRest⟩ := List.forall_mem_cons.mp each
      rw [placesOfAll_cons] at hne ⊢
      obtain ⟨hne, hneRest⟩ := List.forall_mem_append.mp hne
      rw [List.filterMap_append, each part _ ho hne, ih hos eachRest hneRest]
      split
      · rfl
      · rfl

/-- The names declared at the places of a tree for a scope around it. -/
theorem filterMap_declaredIn (hx : o.piece? = some x)
    (hne : ∀ p ∈ o.places path above, p.path ≠ scope) :
    (o.places path above).filterMap (Place.declaredIn? scope) =
      if scopeOf above = some scope then x.declared else [] := by
  induction o generalizing x path above with
  | missing id => cases hx
  | node n children ih =>
    obtain ⟨parts, hparts, hasm⟩ := piece?_node_eq_some.mp hx
    rw [places_node] at hne ⊢
    obtain ⟨htop, hbelow⟩ := List.forall_mem_cons.mp hne
    have hchildren := filterMap_declaredIn_of_each hparts
      (fun o ho x path hx hne => ih o ho hx hne) hbelow
    cases hopens : n.kind.opensScope with
    | true =>
      have htop : some path ≠ some scope := fun heq => htop (Option.some.inj heq)
      rw [List.filterMap_cons_none (declaredIn?_of_opens hopens), hchildren,
        scopeOf_cons_of_opens hopens, if_neg htop, NodeKind.declared_of_opens hasm hopens, ite_self]
    | false =>
      have hframe : n.kind.naming ≠ .frame := fun h => by
        rw [NodeKind.opensScope_of_frame h] at hopens
        cases hopens
      have hself : Place.declaredIn? scope ⟨path, above, n.id, some n⟩ =
          if scopeOf above = some scope then n.kind.naming.declared? else none :=
        congrArg (fun s => if s = some scope then n.kind.naming.declared? else none)
          (scopeOf_cons_of_inner hopens)
      rw [(NodeKind.gathered_of_assemble hasm hframe).1, List.filterMap_cons, hself, hchildren,
        scopeOf_cons_of_inner hopens]
      by_cases hs : scopeOf above = some scope
      · simp only [if_pos hs]
        cases n.kind.naming.declared? <;> rfl
      · simp only [if_neg hs]

/-- What is declared in a scope is declared below its place. -/
theorem filterMap_declaredIn_top {children : List Outline} {parts : List Piece}
    (hparts : children.map piece? = parts.map some) (hopens : n.kind.opensScope = true) :
    ((node n children).places path above).filterMap (Place.declaredIn? path) =
      parts.flatMap Piece.declared := by
  have hne : ∀ p ∈ placesOfAll path (⟨path, n⟩ :: above) 0 children, p.path ≠ path := by
    intro p hp heq
    obtain ⟨j, rest, -, hpath⟩ := exists_of_mem_placesOfAll hp
    rw [heq] at hpath
    cases List.append_right_eq_self.mp hpath.symm
  rw [places_node, List.filterMap_cons_none (declaredIn?_of_opens hopens),
    filterMap_declaredIn_of_each hparts (fun o _ x _ hx hne => filterMap_declaredIn hx hne) hne,
    if_pos (scopeOf_cons_of_opens hopens)]

/-- Of the places in these trees those below a place in one of them are in that one. -/
theorem filter_prefix_placesOfAll {i j : Nat} {f : List Nat} (ho : os[j]? = some o)
    (hf : path ++ [i + j] <+: f) :
    (placesOfAll path above i os).filter (f <+: ·.path) =
      (o.places (path ++ [i + j]) above).filter (f <+: ·.path) := by
  have outside : ∀ (k : Nat) (p : Place), k ≠ i + j → path ++ [k] <+: p.path → ¬ f <+: p.path := by
    intro k p hk hp hfp
    obtain ⟨rest, hrest⟩ := hp
    have hprefix := hf.trans hfp
    rw [← hrest, List.append_assoc, List.prefix_append_right_inj, List.singleton_append,
      List.cons_prefix_cons] at hprefix
    exact hk hprefix.1.symm
  induction os generalizing i j with
  | nil => cases ho
  | cons first os ih =>
    rw [placesOfAll_cons, List.filter_append]
    cases j with
    | zero =>
      obtain rfl := Option.some.inj ho
      have hrest : (placesOfAll path above (i + 1) os).filter (f <+: ·.path) = [] := by
        refine List.filter_eq_nil_iff.mpr fun p hp => ?_
        obtain ⟨k, rest, hk, hpath⟩ := exists_of_mem_placesOfAll hp
        simpa using outside k p (by omega) ⟨rest, by rw [hpath, List.append_assoc]; rfl⟩
      rw [hrest, List.append_nil]
      rfl
    | succ j =>
      have hfirst : (first.places (path ++ [i]) above).filter (f <+: ·.path) = [] := by
        refine List.filter_eq_nil_iff.mpr fun p hp => ?_
        simpa using outside i p (by omega) (prefix_of_mem_places hp)
      have hij : i + (j + 1) = i + 1 + j := by omega
      rw [hfirst, List.nil_append, hij]
      rw [hij] at hf outside
      exact ih ho hf outside

end Outline

namespace Ast

variable {ast : Ast} {root : NodeId} {f : Place} {fn : FunctionDecl}

/-- The arena holds one tree below a node. -/
theorem Shows.eq_of_id_eq {o' : Outline} (h : ast.Shows o) (h' : ast.Shows o')
    (heq : o.id = o'.id) : o = o' := by
  induction h generalizing o' with
  | @node n children hn hk hs ih =>
    cases h' with
    | @node m others hm hk' hs' =>
      rw [show n.id = m.id from heq, hm] at hn
      obtain rfl := Option.some.inj hn
      rw [hk] at hk'
      refine congrArg _ ?_
      clear hk heq hm hn
      induction children generalizing others with
      | nil =>
        cases others with
        | nil => rfl
        | cons o others => cases hk'
      | cons o children ihc =>
        cases others with
        | nil => cases hk'
        | cons o' others =>
          obtain ⟨hid, hids⟩ := List.cons.inj hk'
          obtain ⟨hs, hss⟩ := List.forall_mem_cons.mp hs
          obtain ⟨hs', hss'⟩ := List.forall_mem_cons.mp hs'
          obtain ⟨ih, ihs⟩ := List.forall_mem_cons.mp ih
          rw [ih hs' hid, ihc hss ihs hids hss']

/-- The places below a place are those of the tree that it is the top of. -/
theorem Shows.exists_subtree (h : ast.Shows o) (hx : o.piece? = some x)
    (hf : f ∈ o.places path above) (hn : f.node? = some n) :
    ∃ children y, ast.Shows (.node n children) ∧ (Outline.node n children).piece? = some y ∧
      (o.places path above).filter (f.path <+: ·.path) =
        (Outline.node n children).places f.path f.above := by
  induction h generalizing x path above with
  | @node m children hm hk hs ih =>
    obtain ⟨parts, hparts, -⟩ := Outline.piece?_node_eq_some.mp hx
    have hall := hf
    rw [Outline.places_node] at hf
    rcases List.mem_cons.mp hf with rfl | hf
    · obtain rfl := Option.some.inj hn
      refine ⟨children, x, .node hm hk hs, hx, List.filter_eq_self.mpr fun p hp => ?_⟩
      exact decide_eq_true (Outline.prefix_of_mem_places hp)
    · obtain ⟨j, o, ho, hp⟩ := Outline.mem_placesOfAll.mp hf
      have hmem := List.mem_of_getElem? ho
      obtain ⟨y, -, hy⟩ := Outline.exists_part_of_mem hparts hmem
      obtain ⟨cs, z, hcs, hz, hfilter⟩ := ih o hmem hy hp
      refine ⟨cs, z, hcs, hz, ?_⟩
      have htop : ¬ f.path <+: path := by
        intro hle
        have hlen := ((Outline.prefix_of_mem_places hp).trans hle).length_le
        rw [List.length_append, List.length_singleton] at hlen
        omega
      rw [Outline.places_node, List.filter_cons_of_neg (by simpa using htop),
        Outline.filter_prefix_placesOfAll ho (Outline.prefix_of_mem_places hp), hfilter]

/-- The names declared in the scope of a place are declared in the tree that it is the top of. -/
theorem Shows.exists_declaredIn_eq (h : ast.Shows (ast.outline root))
    (hx : (ast.outline root).piece? = some x) (hf : f ∈ ast.places root) (hn : f.node? = some n) :
    ∃ children y, ast.Shows (.node n children) ∧ (Outline.node n children).piece? = some y ∧
      (ast.places root).filterMap (Place.declaredIn? f.path) =
        ((Outline.node n children).places f.path f.above).filterMap (Place.declaredIn? f.path) := by
  obtain ⟨children, y, hshows, hy, hfilter⟩ := h.exists_subtree hx hf hn
  refine ⟨children, y, hshows, hy, ?_⟩
  rw [← hfilter, List.filterMap_filter]
  refine List.filterMap_congr fun p hp => ?_
  split
  · rfl
  · next hnot =>
    refine if_neg fun hs => hnot ?_
    exact decide_eq_true (prefix_of_scope? hp hs)

/-- Outside of functions a program declares nothing. -/
theorem Shows.declaredIn_eq_nil (h : ast.Shows (ast.outline root))
    (hx : (ast.outline root).piece? = some x) (hf : f ∈ ast.places root) (hn : f.node? = some n)
    (hopens : n.kind.opensScope = true) (hframe : n.kind.naming ≠ .frame) :
    (ast.places root).filterMap (Place.declaredIn? f.path) = [] := by
  obtain ⟨children, y, -, hy, heq⟩ := h.exists_declaredIn_eq hx hf hn
  obtain ⟨parts, hparts, hasm⟩ := Outline.piece?_node_eq_some.mp hy
  have hgathered := (NodeKind.gathered_of_assemble hasm hframe).1
  rw [NodeKind.declared_of_opens hasm hopens] at hgathered
  rw [heq, Outline.filterMap_declaredIn_top hparts hopens]
  exact (List.append_eq_nil_iff.mp hgathered.symm).2

/-- In its scope a function declares its parameters and what is declared in its body. -/
theorem Declares.declaredIn_eq (hd : ast.Declares n fn) (h : ast.Shows (ast.outline root))
    (hx : (ast.outline root).piece? = some x) (hf : f ∈ ast.places root) (hn : f.node? = some n) :
    (ast.places root).filterMap (Place.declaredIn? f.path) = fn.declared := by
  obtain ⟨hframe, children, hshows, hfn⟩ := hd
  obtain ⟨cs, y, hcs, -, hnames⟩ := h.exists_declaredIn_eq hx hf hn
  obtain rfl := (Outline.node.inj (hcs.eq_of_id_eq hshows rfl)).2
  obtain ⟨ty, name, ps, body, hkind⟩ := NodeKind.eq_function_of_naming hframe
  obtain ⟨parts, hparts, hasm⟩ := Outline.piece?_node_eq_some.mp hfn
  rw [hkind] at hasm
  obtain ⟨g, -, heq, rfl⟩ := NodeKind.function_of_assemble hasm
  obtain rfl := FunctionDecl.member_injective (Piece.member.inj heq)
  rw [hnames, Outline.filterMap_declaredIn_top hparts (NodeKind.opensScope_of_frame hframe)]
  simp [Piece.declared, FunctionDecl.declared, Stmt.declared]

end Ast

end FlatScope
