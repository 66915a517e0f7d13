import FlatScope.Proofs.Frames
import FlatScope.Proofs.ParsedTree

/-!
# The functions of a program

`Program.functions` lists the functions of a program in the order of the text, and
`FunctionDecl.declared` the names that one of them declares. In a tree that stands for the program
the function nodes are just these, in this order (`Shows.forall_functions`), and `ast.typeOf` and
`ast.parameterTypes` read their types off their nodes (`Declares.types`).
-/

namespace FlatScope

structure FunctionDecl where
  result : Ty
  name : String
  params : List Param
  body : List Stmt
deriving Repr

namespace Member

def function? : Member → Option FunctionDecl
  | field .. => none
  | function ty name params body => some ⟨ty, name, params, body⟩

end Member

/-- The functions in the order of the text. -/
def Program.functions (p : Program) : List FunctionDecl :=
  p.classes.flatMap fun d => d.members.filterMap Member.function?

namespace Stmt

mutual

/-- The names of the declarations anywhere in a statement, in the order of the text. -/
def declared : Stmt → List String
  | block body => declaredInEach body
  | declare _ name => [name]
  | ifThen _ thenBranch => thenBranch.declared
  | ifElse _ thenBranch elseBranch => thenBranch.declared ++ elseBranch.declared
  | whileDo _ body => body.declared
  | assign .. | ret _ | brk | cont | print _ | eval _ => []

def declaredInEach : List Stmt → List String
  | [] => []
  | s :: ss => s.declared ++ declaredInEach ss

end

@[simp] theorem declaredInEach_eq_flatMap (ss : List Stmt) :
    declaredInEach ss = ss.flatMap declared := by
  induction ss with
  | nil => rfl
  | cons s ss ih => rw [declaredInEach, ih, List.flatMap_cons]

end Stmt

namespace FunctionDecl

/-- The names of the parameters and of the declarations in the body, in the order of the text. -/
def declared (f : FunctionDecl) : List String :=
  f.params.map (·.name) ++ f.body.flatMap Stmt.declared

/-- The different names of the parameters and the declarations. -/
def locals (f : FunctionDecl) : List String := f.declared.eraseDups

def member (f : FunctionDecl) : Member := .function f.result f.name f.params f.body

theorem member_injective : Function.Injective member := by
  rintro ⟨result, name, params, body⟩ ⟨result', name', params', body'⟩ h
  cases h
  rfl

end FunctionDecl

theorem Member.function?_eq_some {m : Member} {f : FunctionDecl} :
    m.function? = some f ↔ m = f.member := by
  cases m with
  | field ty name => simp [function?, FunctionDecl.member]
  | function ty name params body =>
    cases f
    simp [function?, FunctionDecl.member]

/-! ## Declared names are words of the program -/

theorem mem_separated {parts : List (List Word)} {part : List Word} {w : Word}
    (hpart : part ∈ parts) (hw : w ∈ part) : w ∈ separated parts := by
  cases parts with
  | nil => cases hpart
  | cons first parts =>
    rw [separated]
    rcases List.mem_cons.mp hpart with rfl | hpart
    · exact List.mem_append_left _ hw
    · exact List.mem_append_right _
        (List.mem_flatMap.mpr ⟨part, hpart, List.mem_cons_of_mem _ hw⟩)

variable {name : String}

theorem Stmt.name_mem_words {s : Stmt} (h : name ∈ s.declared) : .name name ∈ s.words := by
  induction s with
  | block body ih =>
    rw [declared, declaredInEach_eq_flatMap] at h
    obtain ⟨s, hs, hname⟩ := List.mem_flatMap.mp h
    have hwords := List.mem_flatten_of_mem (List.mem_map_of_mem hs) (ih s hs hname)
    simp [words, inBraces, hwords]
  | declare ty other =>
    obtain rfl := List.mem_singleton.mp h
    simp [words]
  | ifThen cond s ih => simp [words, ih h]
  | ifElse cond s t ihs iht =>
    rcases List.mem_append.mp h with h | h
    · simp [words, ihs h]
    · simp [words, iht h]
  | whileDo cond s ih => simp [words, ih h]
  | assign | ret | brk | cont | print | eval => cases h

theorem FunctionDecl.name_mem_words {f : FunctionDecl} (h : name ∈ f.declared) :
    .name name ∈ f.member.words := by
  unfold member Member.words
  rcases List.mem_append.mp h with h | h
  · obtain ⟨p, hp, rfl⟩ := List.mem_map.mp h
    have hwords : Word.name p.name ∈ separated (f.params.map Param.words) :=
      mem_separated (List.mem_map_of_mem hp) (by simp [Param.words])
    simp [inParens, hwords]
  · obtain ⟨s, hs, hname⟩ := List.mem_flatMap.mp h
    have hwords := List.mem_flatten_of_mem (List.mem_map_of_mem hs) (Stmt.name_mem_words hname)
    simp [blockWords, inBraces, hwords]

theorem Program.mem_words_of_function {p : Program} {f : FunctionDecl} (hf : f ∈ p.functions)
    {w : Word} (h : w ∈ f.member.words) : w ∈ p.words := by
  obtain ⟨d, hd, hf⟩ := List.mem_flatMap.mp hf
  obtain ⟨m, hm, hf⟩ := List.mem_filterMap.mp hf
  obtain rfl := Member.function?_eq_some.mp hf
  have hmember := List.mem_flatten_of_mem (List.mem_map_of_mem hm) h
  have hclass : w ∈ d.words := by simp [ClassDecl.words, inBraces, hmember]
  exact List.mem_flatten_of_mem (List.mem_map_of_mem hd) hclass

theorem Program.name_mem_words {p : Program} {f : FunctionDecl} (hf : f ∈ p.functions)
    (h : name ∈ f.declared) : .name name ∈ p.words :=
  mem_words_of_function hf (f.name_mem_words h)

/-! ## The functions in a piece -/

namespace Piece

def functions : Piece → List FunctionDecl
  | program p => p.functions
  | classDecl d => d.members.filterMap Member.function?
  | members ms => ms.filterMap Member.function?
  | member m => m.function?.toList
  | _ => []

/-- The names declared in a piece, but for those declared inside its functions. -/
def declared : Piece → List String
  | params ps => ps.map (·.name)
  | param p => [p.name]
  | stmts ss => ss.flatMap Stmt.declared
  | stmt s => s.declared
  | _ => []

end Piece

namespace NodeKind

variable {kind : NodeKind} {parts : List Piece} {x : Piece}

/--
What is declared in a piece is declared at its top or below, and its functions are those below,
unless the top is a function.
-/
theorem gathered_of_assemble (h : kind.assemble parts = some x) (hk : kind.naming ≠ .frame) :
    x.declared = kind.naming.declared?.toList ++ parts.flatMap Piece.declared ∧
      x.functions = parts.flatMap Piece.functions := by
  unfold assemble at h
  split at h
  all_goals first
    | exact absurd rfl hk
    | (cases h; done)
    | obtain ⟨as, has, rfl⟩ := Option.map_eq_some_iff.mp h
      first
        | obtain rfl := eq_map_of_mapM (fun _ => Piece.eq_of_classDecl?) has
        | obtain rfl := eq_map_of_mapM (fun _ => Piece.eq_of_member?) has
        | obtain rfl := eq_map_of_mapM (fun _ => Piece.eq_of_param?) has
        | obtain rfl := eq_map_of_mapM (fun _ => Piece.eq_of_stmt?) has
        | obtain rfl := eq_map_of_mapM (fun _ => Piece.eq_of_expr?) has
      simp [naming, Naming.declared?, Piece.declared, Piece.functions, Program.functions,
        List.flatMap_map, ← List.map_eq_flatMap, ← List.filterMap_eq_flatMap_toList]
    | cases h
      simp [naming, Naming.declared?, Piece.declared, Stmt.declared, Piece.functions,
        Member.function?]

theorem eq_function_of_naming (h : kind.naming = .frame) :
    ∃ ty name ps body, kind = .function ty name ps body := by
  unfold naming at h
  split at h <;> first | exact ⟨_, _, _, _, rfl⟩ | cases h

/-! ### What a node of one kind is assembled from -/

/-- A function is assembled from its type, its parameters and its body. -/
theorem function_of_assemble {ty ps body : NodeId} {name : String}
    (h : (function ty name ps body).assemble parts = some x) :
    ∃ f : FunctionDecl, f.name = name ∧ x = .member f.member ∧
      parts = [.type f.result, .params f.params, .stmt (.block f.body)] := by
  unfold assemble at h
  split at h
  all_goals first | contradiction | cases h
  next result params body heq =>
    cases heq
    exact ⟨⟨result, name, params, body⟩, rfl, rfl, rfl⟩

theorem param_of_assemble {ty : NodeId} {name : String}
    (h : (param ty name).assemble parts = some x) :
    ∃ p : Param, p.name = name ∧ x = .param p ∧ parts = [.type p.ty] := by
  unfold assemble at h
  split at h
  all_goals first | contradiction | cases h
  next ty heq =>
    cases heq
    exact ⟨⟨ty, name⟩, rfl, rfl, rfl⟩

theorem params_of_assemble {items : List NodeId} (h : (params items).assemble parts = some x) :
    ∃ ps : List Param, x = .params ps ∧ parts = ps.map .param := by
  obtain ⟨ps, hps, rfl⟩ := Option.map_eq_some_iff.mp h
  exact ⟨ps, rfl, eq_map_of_mapM (fun _ => Piece.eq_of_param?) hps⟩

theorem name_of_assemble {name : String} (h : (identifier name none).assemble parts = some x) :
    x = .expr (.name name) := by
  unfold assemble at h
  split at h
  all_goals first
    | contradiction
    | next heq => cases heq <;> cases h <;> rfl

/-- A type is built in or a class by its name. -/
theorem type_of_assemble {spec : TypeSpec} (h : (type spec).assemble parts = some x) :
    (∃ id name, spec = .named id ∧ x = .type (.named name) ∧ parts = [.expr (.name name)]) ∨
      spec = .int ∧ x = .type .int ∨ spec = .float ∧ x = .type .float ∨
        spec = .string ∧ x = .type .string ∨ spec = .void ∧ x = .type .void := by
  unfold assemble at h
  split at h
  all_goals first
    | contradiction
    | next heq =>
      cases heq
      cases h
      simp

end NodeKind

/-! ## Types of functions -/

theorem Role.eq_of_admits_type {kind : NodeKind} (h : Role.type.admits kind) :
    ∃ spec, kind = .type spec := by
  cases kind <;> first | exact ⟨_, rfl⟩ | cases h

theorem Role.eq_of_admits_param {kind : NodeKind} (h : Role.param.admits kind) :
    ∃ ty name, kind = .param ty name := by
  cases kind <;> first | exact ⟨_, _, rfl⟩ | cases h

theorem Role.eq_of_admits_params {kind : NodeKind} (h : Role.params.admits kind) :
    ∃ items, kind = .params items := by
  cases kind <;> first | exact ⟨_, rfl⟩ | cases h

theorem Role.eq_of_admits_className {kind : NodeKind} (h : Role.className.admits kind) :
    ∃ name, kind = .identifier name none := by
  cases kind with
  | identifier name args => cases args <;> first | exact ⟨_, rfl⟩ | cases h
  | _ => cases h

namespace Ast

variable {ast : Ast} {o : Outline}

theorem Shows.identName_eq {name : String} (h : ast.Shows o)
    (hx : o.piece? = some (.expr (.name name))) : ast.identName o.id = some name := by
  obtain ⟨⟨id, kind, loc⟩, _, _, hn, -, -, -, hasm⟩ := h.top_assembled hx
  obtain ⟨other, rfl⟩ := Role.eq_of_admits_className (Role.admits_of_assemble hasm rfl)
  cases NodeKind.name_of_assemble hasm
  unfold identName
  rw [hn]

theorem Shows.typeOf_eq {ty : Ty} (h : ast.Shows o) (hx : o.piece? = some (.type ty)) :
    ast.typeOf o.id = some ty := by
  obtain ⟨⟨id, kind, loc⟩, os, parts, hn, hk, hs, hparts, hasm⟩ := h.top_assembled hx
  obtain ⟨spec, rfl⟩ := Role.eq_of_admits_type (Role.admits_of_assemble hasm rfl)
  unfold typeOf
  rw [hn]
  rcases NodeKind.type_of_assemble hasm with ⟨name, text, rfl, heq, rfl⟩ | hbuiltin
  · obtain ⟨c, rfl, hc⟩ := List.map_eq_singleton_iff.mp hparts
    obtain rfl : name = c.id := List.singleton_inj.mp hk
    cases heq
    show (ast.identName c.id).map Ty.named = _
    rw [(hs c (List.mem_singleton_self c)).identName_eq hc]
    rfl
  · rcases hbuiltin with ⟨rfl, heq⟩ | ⟨rfl, heq⟩ | ⟨rfl, heq⟩ | ⟨rfl, heq⟩ <;> cases heq <;> rfl

theorem Shows.parameterType_eq {p : Param} (h : ast.Shows o) (hx : o.piece? = some (.param p)) :
    ast.parameterType o.id = some p.ty := by
  obtain ⟨⟨id, kind, loc⟩, os, parts, hn, hk, hs, hparts, hasm⟩ := h.top_assembled hx
  obtain ⟨ty, name, rfl⟩ := Role.eq_of_admits_param (Role.admits_of_assemble hasm rfl)
  obtain ⟨q, -, heq, rfl⟩ := NodeKind.param_of_assemble hasm
  obtain ⟨c, rfl, hc⟩ := List.map_eq_singleton_iff.mp hparts
  obtain rfl : ty = c.id := List.singleton_inj.mp hk
  cases heq
  unfold parameterType
  rw [hn]
  exact (hs c (List.mem_singleton_self c)).typeOf_eq hc

theorem mapM_parameterType {os : List Outline} {ps : List Param} (hs : ∀ o ∈ os, ast.Shows o)
    (hx : os.map Outline.piece? = (ps.map Piece.param).map some) :
    (os.map Outline.id).mapM ast.parameterType = some (ps.map (·.ty)) := by
  induction os generalizing ps with
  | nil =>
    cases ps with
    | nil => rfl
    | cons p ps => cases hx
  | cons o os ih =>
    cases ps with
    | nil => cases hx
    | cons p ps =>
      obtain ⟨ho, hos⟩ := List.cons.inj hx
      obtain ⟨hso, hsos⟩ := List.forall_mem_cons.mp hs
      rw [List.map_cons, List.mapM_cons, hso.parameterType_eq ho, ih hsos hos]
      rfl

theorem Shows.parameterTypes_eq {ps : List Param} (h : ast.Shows o)
    (hx : o.piece? = some (.params ps)) : ast.parameterTypes o.id = some (ps.map (·.ty)) := by
  obtain ⟨⟨id, kind, loc⟩, os, parts, hn, hk, hs, hparts, hasm⟩ := h.top_assembled hx
  obtain ⟨items, rfl⟩ := Role.eq_of_admits_params (Role.admits_of_assemble hasm rfl)
  obtain ⟨qs, heq, rfl⟩ := NodeKind.params_of_assemble hasm
  obtain rfl : items = os.map Outline.id := hk
  cases heq
  unfold parameterTypes
  rw [hn]
  exact mapM_parameterType hs hparts

/-! ## Function nodes -/

/-- The node is a function, the top of a tree that stands for this one. -/
def Declares (ast : Ast) (n : Node) (f : FunctionDecl) : Prop :=
  n.kind.naming = .frame ∧ ∃ children, ast.Shows (.node n children) ∧
    (Outline.node n children).piece? = some (.member f.member)

/-- The function nodes of a tree are the functions that it stands for, in the same order. -/
theorem Shows.forall_functions {x : Piece} (h : ast.Shows o) (hx : o.piece? = some x) :
    List.Forall₂ ast.Declares (o.nodes.filter (·.kind.naming = .frame)) x.functions := by
  induction h generalizing x with
  | @node n children hn hk hs ih =>
    obtain ⟨parts, hparts, hasm⟩ := Outline.piece?_node_eq_some.mp hx
    have hbelow : List.Forall₂ ast.Declares
        ((children.flatMap Outline.nodes).filter (·.kind.naming = .frame))
        (parts.flatMap Piece.functions) := by
      clear hk hasm hx hs
      induction children generalizing parts with
      | nil =>
        cases parts with
        | nil => exact .nil
        | cons part parts => cases hparts
      | cons o os ihos =>
        cases parts with
        | nil => cases hparts
        | cons part parts =>
          obtain ⟨ho, hos⟩ := List.cons.inj hparts
          obtain ⟨iho, ihrest⟩ := List.forall_mem_cons.mp ih
          rw [List.flatMap_cons, List.filter_append, List.flatMap_cons]
          exact List.rel_append (iho ho) (ihos ihrest parts hos)
    rw [Outline.nodes_node]
    by_cases hframe : n.kind.naming = .frame
    · obtain ⟨ty, name, ps, body, hkind⟩ := NodeKind.eq_function_of_naming hframe
      rw [hkind] at hasm
      obtain ⟨f, -, rfl, rfl⟩ := NodeKind.function_of_assemble hasm
      rw [List.filter_cons_of_pos (by simpa using hframe), List.forall₂_nil_right_iff.mp hbelow]
      exact .cons ⟨hframe, children, .node hn hk hs, hx⟩ .nil
    · rw [List.filter_cons_of_neg (by simpa using hframe),
        (NodeKind.gathered_of_assemble hasm hframe).2]
      exact hbelow

/-- The types of a function are read off its node. -/
theorem Declares.types {n : Node} {f : FunctionDecl} (h : ast.Declares n f) :
    ∃ ty ps body, n.kind = .function ty f.name ps body ∧ ast.typeOf ty = some f.result ∧
      ast.parameterTypes ps = some (f.params.map (·.ty)) := by
  obtain ⟨hframe, children, hshows, hx⟩ := h
  obtain ⟨ty, name, ps, body, hkind⟩ := NodeKind.eq_function_of_naming hframe
  cases hshows with
  | node hn hk hs =>
    obtain ⟨parts, hparts, hasm⟩ := Outline.piece?_node_eq_some.mp hx
    rw [hkind] at hasm hk
    obtain ⟨g, rfl, heq, rfl⟩ := NodeKind.function_of_assemble hasm
    obtain rfl := FunctionDecl.member_injective (Piece.member.inj heq)
    obtain ⟨oty, _, rfl, hty, hrest⟩ := List.map_eq_cons_iff.mp hparts
    obtain ⟨ops, _, rfl, hps, hrest⟩ := List.map_eq_cons_iff.mp hrest
    obtain ⟨obody, rfl, -⟩ := List.map_eq_singleton_iff.mp hrest
    cases hk
    exact ⟨_, _, _, hkind, (hs oty (by simp)).typeOf_eq hty,
      (hs ops (by simp)).parameterTypes_eq hps⟩

end Ast

end FlatScope
