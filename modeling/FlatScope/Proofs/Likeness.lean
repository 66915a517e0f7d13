import Std.Data.String.ToInt
import Mathlib.Data.List.Nodup
import FlatScope.Dump
import FlatScope.Proofs.Quoting

/-!
# Kinds that are alike

`NodeKind.bare` forgets what a kind refers to and keeps the rest: its constructor, its names, its
values and how many references it has. Two kinds are `Alike` if that is the same, or if they are
doubles of the same text. Name, detail and number of children of a kind are enough to know it that
far (`alike_of_shown`).
-/

namespace FlatScope.NodeKind

variable {k k' : NodeKind}

/-- The kind with all references lost. -/
def bare : NodeKind → NodeKind
  | compUnit items => compUnit (items.map fun _ => .null)
  | classDecl name _ => classDecl name .null
  | definitions items => definitions (items.map fun _ => .null)
  | field _ name => field .null name
  | function _ name _ _ => function .null name .null .null
  | params items => params (items.map fun _ => .null)
  | param _ name => param .null name
  | type (.named _) => type (.named .null)
  | type spec => type spec
  | statements items => statements (items.map fun _ => .null)
  | compound _ => compound .null
  | declaration _ name => declaration .null name
  | assignment _ _ => assignment .null .null
  | ifThen _ _ => ifThen .null .null
  | ifElse _ _ _ => ifElse .null .null .null
  | whileDo _ _ => whileDo .null .null
  | ret value => ret (value.map fun _ => .null)
  | brk => brk
  | cont => cont
  | print _ => print .null
  | eval _ => eval .null
  | expressions items => expressions (items.map fun _ => .null)
  | int value => int value
  | float value => float value
  | string value => string value
  | null => null
  | this => this
  | identifier name args => identifier name (args.map fun _ => .null)
  | new className args => new className (args.map fun _ => .null)
  | accessor _ member args => accessor .null member (args.map fun _ => .null)
  | binary op _ _ => binary op .null .null
  | unary op _ => unary op .null
  | paren _ => paren .null
  | error => error

/-- Equal but for the references, or doubles that read alike. -/
inductive Alike : NodeKind → NodeKind → Prop where
  | same {k k' : NodeKind} : k.bare = k'.bare → Alike k k'
  | float {x y : Binary64} : x.text = y.text → Alike (.float x) (.float y)

/-! ## Constructors by their names -/

/-- The names of the kinds in the order of the constructors. -/
def names : List String :=
  ["comp_unit", "class", "definitions", "field", "function", "params", "param", "type",
   "statements", "compound", "declaration", "assignment", "if", "if_else", "while", "return",
   "break", "continue", "print", "expr_stmt", "expressions", "int", "float", "string", "null",
   "this", "identifier", "new", "accessor", "binary", "unary", "paren", "error"]

theorem getElem?_names (k : NodeKind) : names[k.ctorIdx]? = some k.name := by cases k <;> rfl

theorem name_mem_names (k : NodeKind) : k.name ∈ names := List.mem_of_getElem? (getElem?_names k)

theorem nodup_names : names.Nodup := by decide

/-- No two constructors have one name. -/
theorem ctorIdx_eq_of_name (h : k.name = k'.name) : k.ctorIdx = k'.ctorIdx := by
  have hk := getElem?_names k
  have hk' := getElem?_names k'
  rw [← h] at hk'
  obtain ⟨hlt, -⟩ := List.getElem?_eq_some_iff.mp hk
  exact (List.getElem?_inj hlt nodup_names).mp (hk.trans hk'.symm)

/-- The names of the kinds with a detail. -/
def detailed : List String :=
  ["class", "field", "function", "param", "type", "declaration", "int", "float", "string",
   "identifier", "new", "accessor", "binary", "unary"]

theorem isSome_detail (k : NodeKind) : k.detail.isSome = decide (k.name ∈ detailed) := by
  cases k with
  | type spec => cases spec <;> rfl
  | _ => rfl

/-! ## Kinds by their details -/

theorem map_null_eq {items items' : List NodeId} (h : items.length = items'.length) :
    items.map (fun _ => (Key.null : NodeId)) = items'.map fun _ => .null := by
  rw [List.map_const', List.map_const', h]

theorem map_null_eq_of_toList {args args' : Option NodeId}
    (h : args.toList.length = args'.toList.length) :
    args.map (fun _ => (Key.null : NodeId)) = args'.map fun _ => .null := by
  cases args <;> cases args' <;> first | rfl | cases h

theorem called_inj {name name' : String} {args args' : Option NodeId}
    (hargs : args.toList.length = args'.toList.length) (h : called name args = called name' args') :
    name = name' := by
  cases args with
  | none =>
    cases args' with
    | none => exact h
    | some _ => cases hargs
  | some _ =>
    cases args' with
    | none => cases hargs
    | some _ => exact (String.append_left_inj "()").mp h

theorem binary_text_inj {op op' : BinOp} (h : op.text = op'.text) : op = op' := by
  cases op <;> cases op' <;> first | rfl | exact absurd h (by decide)

theorem unary_text_inj {op op' : UnOp} (h : op.text = op'.text) : op = op' := by
  cases op <;> cases op' <;> first | rfl | exact absurd h (by decide)

theorem bare_type_eq {spec spec' : TypeSpec} (h : (type spec).detail = (type spec').detail) :
    (type spec).bare = (type spec').bare := by
  cases spec <;> cases spec' <;> first | rfl | simp [detail] at h

/-- A kind is known but for its references by its name, its detail and the number of them. -/
theorem alike_of_shown (hname : k.name = k'.name) (hdetail : k.detail = k'.detail)
    (hcount : k.children.length = k'.children.length) : k.Alike k' := by
  have hidx := ctorIdx_eq_of_name hname
  clear hname
  -- of the pairs of constructors only the equal ones are left
  cases k <;> cases k' <;> cases hidx
  case compUnit.compUnit => exact .same (congrArg compUnit (map_null_eq hcount))
  case definitions.definitions => exact .same (congrArg definitions (map_null_eq hcount))
  case params.params => exact .same (congrArg params (map_null_eq hcount))
  case statements.statements => exact .same (congrArg statements (map_null_eq hcount))
  case expressions.expressions => exact .same (congrArg expressions (map_null_eq hcount))
  case type.type => exact .same (bare_type_eq hdetail)
  case ret.ret => exact .same (congrArg ret (map_null_eq_of_toList hcount))
  case int.int => exact .same (congrArg int (Int.repr_inj.mp (Option.some.inj hdetail)))
  case float.float => exact .float (Option.some.inj hdetail)
  case identifier.identifier =>
    have hname := called_inj hcount (Option.some.inj hdetail)
    exact .same (congrArg₂ identifier hname (map_null_eq_of_toList hcount))
  case new.new =>
    exact .same (congrArg₂ new (Option.some.inj hdetail) (map_null_eq_of_toList hcount))
  case accessor.accessor =>
    have hargs := Nat.succ.inj hcount
    have hmember := (String.append_right_inj ".").mp (called_inj hargs (Option.some.inj hdetail))
    exact .same (congrArg₂ (accessor .null) hmember (map_null_eq_of_toList hargs))
  case binary.binary =>
    obtain rfl := binary_text_inj (Option.some.inj hdetail)
    exact .same rfl
  case unary.unary =>
    obtain rfl := unary_text_inj (Option.some.inj hdetail)
    exact .same rfl
  case string.string =>
    obtain rfl := Text.quoted_inj (Option.some.inj hdetail)
    exact .same rfl
  case classDecl.classDecl | field.field | function.function | param.param |
      declaration.declaration =>
    obtain rfl := Option.some.inj hdetail
    exact .same rfl
  all_goals exact .same rfl

end FlatScope.NodeKind
