import FlatScope.Proofs.Spelling

/-!
# The grammar of the language

`Derives part words`: the grammar derives these words for that part of the language, one rule a
constructor. The rules leave open how operators nest and to which `if` an `else` belongs. Every
sentence is spelled by some tree.
-/

namespace FlatScope

/-- The parts of the language that the grammar has rules for. -/
inductive Part where
  | unit
  | classDef
  | member
  | param
  | type
  | compound
  | stmt
  | expr
  /-- any number of expressions with commas between them -/
  | args
deriving DecidableEq, Repr

inductive Derives : Part → List Word → Prop where
  | unit {classes : List (List Word)} :
      (∀ ws ∈ classes, Derives .classDef ws) → Derives .unit classes.flatten
  | classDef (name : String) {members : List (List Word)} :
      (∀ ws ∈ members, Derives .member ws) →
      Derives .classDef (.keyword .class_ :: .name name :: inBraces members.flatten)
  | field {ty : List Word} (name : String) :
      Derives .type ty → Derives .member (ty ++ [.name name, .symbol .semicolon])
  | function {ty body : List Word} (name : String) {params : List (List Word)} :
      Derives .type ty → (∀ ws ∈ params, Derives .param ws) → Derives .compound body →
      Derives .member (ty ++ .name name :: inParens (separated params) ++ body)
  | param {ty : List Word} (name : String) :
      Derives .type ty → Derives .param (ty ++ [.name name])
  | int : Derives .type [.keyword .int]
  | float : Derives .type [.keyword .float]
  | string : Derives .type [.keyword .string]
  | void : Derives .type [.keyword .void]
  | named (name : String) : Derives .type [.name name]
  | compound {stmts : List (List Word)} :
      (∀ ws ∈ stmts, Derives .stmt ws) → Derives .compound (inBraces stmts.flatten)
  | block {ws : List Word} : Derives .compound ws → Derives .stmt ws
  | declaration {ty : List Word} (name : String) :
      Derives .type ty → Derives .stmt (ty ++ [.name name, .symbol .semicolon])
  | ifThen {cond body : List Word} : Derives .expr cond → Derives .stmt body →
      Derives .stmt (.keyword .if_ :: inParens cond ++ body)
  | ifElse {cond body other : List Word} :
      Derives .expr cond → Derives .stmt body → Derives .stmt other →
      Derives .stmt (.keyword .if_ :: inParens cond ++ body ++ .keyword .else_ :: other)
  | whileDo {cond body : List Word} : Derives .expr cond → Derives .stmt body →
      Derives .stmt (.keyword .while_ :: inParens cond ++ body)
  | ret : Derives .stmt [.keyword .return_, .symbol .semicolon]
  | retValue {value : List Word} : Derives .expr value →
      Derives .stmt (.keyword .return_ :: value ++ [.symbol .semicolon])
  | brk : Derives .stmt [.keyword .break_, .symbol .semicolon]
  | cont : Derives .stmt [.keyword .continue_, .symbol .semicolon]
  | print {value : List Word} : Derives .expr value →
      Derives .stmt (.keyword .print :: inParens value ++ [.symbol .semicolon])
  | assign {target value : List Word} : Derives .expr target → Derives .expr value →
      Derives .stmt (target ++ .symbol .assign :: value ++ [.symbol .semicolon])
  | eval {value : List Word} : Derives .expr value →
      Derives .stmt (value ++ [.symbol .semicolon])
  | binary (op : BinOp) {left right : List Word} : Derives .expr left → Derives .expr right →
      Derives .expr (left ++ .symbol op.symbol :: right)
  | unary (op : UnOp) {operand : List Word} : Derives .expr operand →
      Derives .expr (.symbol op.symbol :: operand)
  | access {object : List Word} (member : String) : Derives .expr object →
      Derives .expr (object ++ [.symbol .dot, .name member])
  | methodCall {object args : List Word} (member : String) :
      Derives .expr object → Derives .args args →
      Derives .expr (object ++ .symbol .dot :: .name member :: inParens args)
  | intLiteral (value : Nat) : Derives .expr [.int value]
  | floatLiteral (value : Binary64) : Derives .expr [.float value]
  | stringLiteral (value : String) : Derives .expr [.text value]
  | null : Derives .expr [.keyword .null]
  | this : Derives .expr [.keyword .this]
  | creation {args : List Word} (className : String) : Derives .args args →
      Derives .expr (.keyword .new :: .name className :: inParens args)
  | name (name : String) : Derives .expr [.name name]
  | call {args : List Word} (name : String) : Derives .args args →
      Derives .expr (.name name :: inParens args)
  | paren {inner : List Word} : Derives .expr inner → Derives .expr (inParens inner)
  | args {items : List (List Word)} :
      (∀ ws ∈ items, Derives .expr ws) → Derives .args (separated items)

/-! ## Trees for sentences -/

/-- Some tree of this part of the language is spelled this way. -/
def Part.HasTree : Part → List Word → Prop
  | unit, ws => ∃ p : Program, p.words = ws
  | classDef, ws => ∃ d : ClassDecl, d.words = ws
  | member, ws => ∃ m : Member, m.words = ws
  | param, ws => ∃ p : Param, p.words = ws
  | type, ws => ∃ ty : Ty, [ty.word] = ws
  | compound, ws => ∃ body : List Stmt, blockWords body = ws
  | stmt, ws => ∃ s : Stmt, s.words = ws
  | expr, ws => ∃ e : Expr, e.words = ws
  | args, ws => ∃ es : List Expr, separated (es.map Expr.words) = ws

theorem exists_map_of_forall {α β : Type} {f : α → β} :
    ∀ {ys : List β}, (∀ y ∈ ys, ∃ x, f x = y) → ∃ xs : List α, xs.map f = ys
  | [], _ => ⟨[], rfl⟩
  | _ :: _, h => by
    obtain ⟨⟨x, hx⟩, hys⟩ := List.forall_mem_cons.mp h
    obtain ⟨xs, hxs⟩ := exists_map_of_forall hys
    exact ⟨x :: xs, by simp [hx, hxs]⟩

theorem Derives.hasTree {part : Part} {ws : List Word} (h : Derives part ws) :
    part.HasTree ws := by
  induction h with
  | unit _ ih =>
    obtain ⟨classes, rfl⟩ := exists_map_of_forall ih
    exact ⟨⟨classes⟩, rfl⟩
  | classDef name _ ih =>
    obtain ⟨members, rfl⟩ := exists_map_of_forall ih
    exact ⟨⟨name, members⟩, rfl⟩
  | field name _ ih =>
    obtain ⟨ty, rfl⟩ := ih
    exact ⟨.field ty name, rfl⟩
  | function name _ _ _ iht ihp ihb =>
    obtain ⟨ty, rfl⟩ := iht
    obtain ⟨params, rfl⟩ := exists_map_of_forall ihp
    obtain ⟨body, rfl⟩ := ihb
    exact ⟨.function ty name params body, by simp [Member.words]⟩
  | param name _ ih =>
    obtain ⟨ty, rfl⟩ := ih
    exact ⟨⟨ty, name⟩, rfl⟩
  | int => exact ⟨.int, rfl⟩
  | float => exact ⟨.float, rfl⟩
  | string => exact ⟨.string, rfl⟩
  | void => exact ⟨.void, rfl⟩
  | named name => exact ⟨.named name, rfl⟩
  | compound _ ih =>
    obtain ⟨body, rfl⟩ := exists_map_of_forall ih
    exact ⟨body, rfl⟩
  | block _ ih =>
    obtain ⟨body, rfl⟩ := ih
    exact ⟨.block body, by simp [Stmt.words, blockWords]⟩
  | declaration name _ ih =>
    obtain ⟨ty, rfl⟩ := ih
    exact ⟨.declare ty name, rfl⟩
  | ifThen _ _ ihc ihb =>
    obtain ⟨cond, rfl⟩ := ihc
    obtain ⟨body, rfl⟩ := ihb
    exact ⟨.ifThen cond body, rfl⟩
  | ifElse _ _ _ ihc ihb iho =>
    obtain ⟨cond, rfl⟩ := ihc
    obtain ⟨body, rfl⟩ := ihb
    obtain ⟨other, rfl⟩ := iho
    exact ⟨.ifElse cond body other, rfl⟩
  | whileDo _ _ ihc ihb =>
    obtain ⟨cond, rfl⟩ := ihc
    obtain ⟨body, rfl⟩ := ihb
    exact ⟨.whileDo cond body, rfl⟩
  | ret => exact ⟨.ret none, rfl⟩
  | retValue _ ih =>
    obtain ⟨value, rfl⟩ := ih
    exact ⟨.ret (some value), rfl⟩
  | brk => exact ⟨.brk, rfl⟩
  | cont => exact ⟨.cont, rfl⟩
  | print _ ih =>
    obtain ⟨value, rfl⟩ := ih
    exact ⟨.print value, rfl⟩
  | assign _ _ iht ihv =>
    obtain ⟨target, rfl⟩ := iht
    obtain ⟨value, rfl⟩ := ihv
    exact ⟨.assign target value, rfl⟩
  | eval _ ih =>
    obtain ⟨value, rfl⟩ := ih
    exact ⟨.eval value, rfl⟩
  | binary op _ _ ihl ihr =>
    obtain ⟨left, rfl⟩ := ihl
    obtain ⟨right, rfl⟩ := ihr
    exact ⟨.binary op left right, rfl⟩
  | unary op _ ih =>
    obtain ⟨operand, rfl⟩ := ih
    exact ⟨.unary op operand, rfl⟩
  | access member _ ih =>
    obtain ⟨object, rfl⟩ := ih
    exact ⟨.field object member, rfl⟩
  | methodCall member _ _ iho iha =>
    obtain ⟨object, rfl⟩ := iho
    obtain ⟨args, rfl⟩ := iha
    exact ⟨.method object member args, by simp [Expr.words]⟩
  | intLiteral value => exact ⟨.int value, rfl⟩
  | floatLiteral value => exact ⟨.float value, rfl⟩
  | stringLiteral value => exact ⟨.string value, rfl⟩
  | null => exact ⟨.null, rfl⟩
  | this => exact ⟨.this, rfl⟩
  | creation className _ ih =>
    obtain ⟨args, rfl⟩ := ih
    exact ⟨.new className args, by simp [Expr.words]⟩
  | name name => exact ⟨.name name, rfl⟩
  | call name _ ih =>
    obtain ⟨args, rfl⟩ := ih
    exact ⟨.call name args, by simp [Expr.words]⟩
  | paren _ ih =>
    obtain ⟨inner, rfl⟩ := ih
    exact ⟨.paren inner, rfl⟩
  | args _ ih => exact exists_map_of_forall ih |>.imp fun _ h => by rw [h]

end FlatScope
