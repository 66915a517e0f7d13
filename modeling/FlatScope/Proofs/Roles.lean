import FlatScope.Proofs.Pieces
import FlatScope.Proofs.Unfolding

/-!
# What references are for

Every reference in a node has a `Role`: the field it stands in asks for a class, a member, a type
and so on, and `Role.admits` says which kinds of nodes that allows. `NodeKind.demands` lists the
references of a node with their roles. A tree that stands for a program meets all of them, for
`NodeKind.assemble` takes no other pieces (`Shows.demand_met`).
-/

namespace FlatScope

inductive Role where
  /-- the top of a program -/
  | unit
  | classDecl
  | definitions
  | member
  | type
  | params
  | param
  | compound
  | statements
  | statement
  | expressions
  | expression
  /-- an identifier without arguments -/
  | className
deriving DecidableEq, Repr

namespace Role

/-- The kinds of nodes that a reference of this role may lead to. -/
def admits : Role → NodeKind → Bool
  | unit, .compUnit _ => true
  | classDecl, .classDecl .. => true
  | definitions, .definitions _ => true
  | member, .field .. | member, .function .. => true
  | type, .type _ => true
  | params, .params _ => true
  | param, .param .. => true
  | compound, .compound _ => true
  | statements, .statements _ => true
  | statement, .compound _ | statement, .declaration .. | statement, .assignment .. => true
  | statement, .ifThen .. | statement, .ifElse .. | statement, .whileDo .. => true
  | statement, .ret _ | statement, .brk | statement, .cont => true
  | statement, .print _ | statement, .eval _ => true
  | expressions, .expressions _ => true
  | expression, .int _ | expression, .float _ | expression, .string _ => true
  | expression, .null | expression, .this => true
  | expression, .identifier .. | expression, .new .. | expression, .accessor .. => true
  | expression, .binary .. | expression, .unary .. | expression, .paren _ => true
  | className, .identifier _ none => true
  | _, _ => false

/-- The pieces that a reference of this role may stand for. -/
def fits : Role → Piece → Bool
  | unit, .program _ => true
  | classDecl, .classDecl _ => true
  | definitions, .members _ => true
  | member, .member _ => true
  | type, .type _ => true
  | params, .params _ => true
  | param, .param _ => true
  | compound, .stmt (.block _) => true
  | statements, .stmts _ => true
  | statement, .stmt _ => true
  | expressions, .exprs _ => true
  | expression, .expr _ => true
  | className, .expr (.name _) => true
  | _, _ => false

end Role

namespace NodeKind

/-- The references of a node and what each of them is for. -/
def demands : NodeKind → List (NodeId × Role)
  | compUnit classes => classes.map (·, .classDecl)
  | classDecl _ members => [(members, .definitions)]
  | definitions items => items.map (·, .member)
  | field ty _ | param ty _ | declaration ty _ => [(ty, .type)]
  | function ty _ ps body => [(ty, .type), (ps, .params), (body, .compound)]
  | params items => items.map (·, .param)
  | type (.named name) => [(name, .className)]
  | statements items => items.map (·, .statement)
  | compound stmts => [(stmts, .statements)]
  | assignment target value => [(target, .expression), (value, .expression)]
  | ifThen cond thenBranch => [(cond, .expression), (thenBranch, .statement)]
  | ifElse cond thenBranch elseBranch =>
    [(cond, .expression), (thenBranch, .statement), (elseBranch, .statement)]
  | whileDo cond body => [(cond, .expression), (body, .statement)]
  | ret value => value.toList.map (·, .expression)
  | print value | eval value | paren value => [(value, .expression)]
  | expressions items => items.map (·, .expression)
  | identifier _ args | new _ args => args.toList.map (·, .expressions)
  | accessor object _ args => (object, .expression) :: args.toList.map (·, .expressions)
  | binary _ left right => [(left, .expression), (right, .expression)]
  | unary _ operand => [(operand, .expression)]
  | type .int | type .float | type .string | type .void => []
  | brk | cont | int _ | float _ | string _ | null | this | error => []

/-- Every child is demanded for something, in the order of the children. -/
theorem demands_map_fst (kind : NodeKind) : kind.demands.map Prod.fst = kind.children := by
  cases kind with
  | type spec => cases spec <;> rfl
  | _ => simp [demands, children, Function.comp_def]

end NodeKind

/-! ## Pieces meet the demands -/

/-- A node is of a kind that its own piece is asked for as. -/
theorem Role.admits_of_assemble {kind : NodeKind} {parts : List Piece} {x : Piece}
    (h : kind.assemble parts = some x) {role : Role} (hr : role.fits x) : role.admits kind := by
  unfold NodeKind.assemble at h
  split at h
  all_goals first
    | obtain ⟨_, -, rfl⟩ := Option.map_eq_some_iff.mp h
    | cases h
  all_goals cases role <;> first | rfl | cases hr

/-- A list that can be unwrapped member by member holds nothing but wrapped members. -/
theorem forall_of_mapM {α : Type} {unwrap : Piece → Option α} {role : Role}
    (hu : ∀ part a, unwrap part = some a → role.fits part) {items : List NodeId} :
    ∀ {parts : List Piece} {as : List α}, parts.mapM unwrap = some as →
      items.length = parts.length →
      List.Forall₂ (fun d part => d.2.fits part) (items.map (·, role)) parts := by
  induction items with
  | nil =>
    intro parts as _ hlen
    obtain rfl := List.length_eq_zero_iff.mp hlen.symm
    exact .nil
  | cons item items ih =>
    intro parts as h hlen
    cases parts with
    | nil => cases hlen
    | cons part parts =>
      rw [List.mapM_cons] at h
      obtain ⟨a, ha, h⟩ := Option.bind_eq_some_iff.mp h
      obtain ⟨as', has, -⟩ := Option.bind_eq_some_iff.mp h
      exact .cons (hu part a ha) (ih has (Nat.succ.inj hlen))

/-- Pieces that were assembled are what the node demands, one by one. -/
theorem NodeKind.forall_fits {kind : NodeKind} {parts : List Piece} {x : Piece}
    (h : kind.assemble parts = some x) (hlen : kind.children.length = parts.length) :
    List.Forall₂ (fun d part => d.2.fits part) kind.demands parts := by
  unfold assemble at h
  split at h
  all_goals first
    | obtain ⟨as, has, -⟩ := Option.map_eq_some_iff.mp h
      refine forall_of_mapM (fun part a hp => ?_) has hlen
      cases part <;> first | rfl | cases hp
    | (cases h; done)
    | simp [demands, Role.fits]

namespace Ast

variable {ast : Ast} {o : Outline}

/-- The top of a tree that stands for something has assembled it from its children. -/
theorem Shows.top_assembled (h : ast.Shows o) {x : Piece} (hx : o.piece? = some x) :
    ∃ (n : Node) (os : List Outline) (parts : List Piece), ast.get? o.id = some n ∧
      n.kind.children = os.map Outline.id ∧ (∀ o ∈ os, ast.Shows o) ∧
      os.map Outline.piece? = parts.map some ∧ n.kind.assemble parts = some x := by
  cases h with
  | @node n os hn hk hs =>
    obtain ⟨parts, hparts, hasm⟩ := Outline.piece?_node_eq_some.mp hx
    exact ⟨n, os, parts, hn, hk, hs, hparts, hasm⟩

/-- In a tree that stands for something, every node has assembled its piece from its children. -/
theorem Shows.assembled (h : ast.Shows o) {x : Piece} (hx : o.piece? = some x) {n : Node}
    (hn : n ∈ o.nodes) :
    ∃ (os : List Outline) (parts : List Piece) (y : Piece), (∀ o ∈ os, ast.Shows o) ∧
      n.kind.children = os.map Outline.id ∧ os.map Outline.piece? = parts.map some ∧
      n.kind.assemble parts = some y := by
  induction h generalizing x with
  | @node m children hm hk hs ih =>
    obtain ⟨parts, hparts, hy⟩ := Outline.piece?_node_eq_some.mp hx
    rw [Outline.nodes_node] at hn
    rcases List.mem_cons.mp hn with rfl | hn
    · exact ⟨children, parts, x, hs, hk, hparts, hy⟩
    · obtain ⟨o, ho, hn⟩ := List.mem_flatMap.mp hn
      obtain ⟨y, -, hy⟩ := Outline.exists_part_of_mem hparts ho
      exact ih o ho hy hn

/-- A demand is met by the tree of the same child. -/
theorem exists_of_forall_fits {ds : List (NodeId × Role)} {parts : List Piece}
    (h : List.Forall₂ (fun d part => d.2.fits part) ds parts) {os : List Outline}
    (hd : ds.map Prod.fst = os.map Outline.id)
    (hp : os.map Outline.piece? = parts.map some) {d : NodeId × Role} (hmem : d ∈ ds) :
    ∃ o ∈ os, o.id = d.1 ∧ ∃ part, o.piece? = some part ∧ d.2.fits part := by
  induction h generalizing os with
  | nil => cases hmem
  | @cons d' part ds parts hfit _ ih =>
    cases os with
    | nil => cases hd
    | cons o os =>
      obtain ⟨hid, hd⟩ := List.cons.inj hd
      obtain ⟨hpart, hp⟩ := List.cons.inj hp
      rcases List.mem_cons.mp hmem with rfl | hmem
      · exact ⟨o, List.mem_cons_self, hid.symm, part, hpart, hfit⟩
      · obtain ⟨o', ho', hrest⟩ := ih hd hp hmem
        exact ⟨o', List.mem_cons_of_mem _ ho', hrest⟩

/-- Every reference in a tree that stands for something leads to a node it may lead to. -/
theorem Shows.demand_met (h : ast.Shows o) {x : Piece} (hx : o.piece? = some x) {n : Node}
    (hn : n ∈ o.nodes) {d : NodeId × Role} (hd : d ∈ n.kind.demands) :
    ∃ m, ast.get? d.1 = some m ∧ d.2.admits m.kind := by
  obtain ⟨os, parts, y, hs, hk, hparts, hy⟩ := h.assembled hx hn
  have hlen : n.kind.children.length = parts.length := by
    have := congrArg List.length hparts
    rw [hk, List.length_map]
    rwa [List.length_map, List.length_map] at this
  have hfst : n.kind.demands.map Prod.fst = os.map Outline.id := by
    rw [NodeKind.demands_map_fst, hk]
  obtain ⟨o', ho', hid, part, hpart, hfit⟩ :=
    exists_of_forall_fits (NodeKind.forall_fits hy hlen) hfst hparts hd
  obtain ⟨m, _, _, hm, -, -, -, hasm⟩ := (hs o' ho').top_assembled hpart
  exact ⟨m, hid ▸ hm, Role.admits_of_assemble hasm hfit⟩

end Ast

end FlatScope
