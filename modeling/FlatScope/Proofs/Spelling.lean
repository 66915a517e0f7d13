import FlatScope.Proofs.Syntax
import FlatScope.Text.Escape

/-!
# How programs are spelled

A `Word` is what a token says: a string literal says the text it stands for, however that text was
escaped, and every other token says itself. `Program.words` writes a program out as words, construct
by construct, and `Spells tokens words` says that a token list says exactly these words.
-/

namespace FlatScope

inductive Word where
  | symbol (symbol : Symbol)
  | keyword (keyword : Keyword)
  | int (value : Nat)
  | float (value : Binary64)
  | text (value : String)
  | name (name : String)
deriving DecidableEq, Repr

/-- What a token says; invalid text and literals with a bad escape say nothing. -/
def Token.word? : Token → Option Word
  | .symbol s => some (.symbol s)
  | .keyword k => some (.keyword k)
  | .int value => some (.int value)
  | .float value => some (.float value)
  | .string raw => (Escape.unquote? raw).map .text
  | .identifier name => some (.name name)
  | .invalid => none

/-- The tokens say the words, one by one. -/
def Spells (tokens : List Token) (words : List Word) : Prop :=
  tokens.map Token.word? = words.map some

instance (tokens : List Token) (words : List Word) : Decidable (Spells tokens words) :=
  inferInstanceAs (Decidable (_ = _))

/-! ## Writing programs -/

/-- Parts with a comma between them. -/
def separated : List (List Word) → List Word
  | [] => []
  | part :: parts => part ++ parts.flatMap (Word.symbol .comma :: ·)

def inParens (inner : List Word) : List Word :=
  .symbol .leftParen :: inner ++ [.symbol .rightParen]

def inBraces (inner : List Word) : List Word :=
  .symbol .leftCurly :: inner ++ [.symbol .rightCurly]

def Ty.word : Ty → Word
  | int => .keyword .int
  | float => .keyword .float
  | string => .keyword .string
  | void => .keyword .void
  | named name => .name name

mutual

def Expr.words : Expr → List Word
  | .int value => [.int value]
  | .float value => [.float value]
  | .string value => [.text value]
  | .null => [.keyword .null]
  | .this => [.keyword .this]
  | .name n => [.name n]
  | .call n args => .name n :: inParens (separated (Expr.wordsOfEach args))
  | .new className args =>
    .keyword .new :: .name className :: inParens (separated (Expr.wordsOfEach args))
  | .field object member => object.words ++ [.symbol .dot, .name member]
  | .method object member args =>
    object.words ++ .symbol .dot :: .name member :: inParens (separated (Expr.wordsOfEach args))
  | .binary op left right => left.words ++ .symbol op.symbol :: right.words
  | .unary op operand => .symbol op.symbol :: operand.words
  | .paren inner => inParens inner.words

def Expr.wordsOfEach : List Expr → List (List Word)
  | [] => []
  | e :: es => e.words :: Expr.wordsOfEach es

end

mutual

def Stmt.words : Stmt → List Word
  | .block body => inBraces (Stmt.wordsOfEach body).flatten
  | .declare ty name => [ty.word, .name name, .symbol .semicolon]
  | .assign target value =>
    target.words ++ .symbol .assign :: value.words ++ [.symbol .semicolon]
  | .ifThen cond thenBranch => .keyword .if_ :: inParens cond.words ++ thenBranch.words
  | .ifElse cond thenBranch elseBranch =>
    .keyword .if_ :: inParens cond.words ++ thenBranch.words ++ .keyword .else_ :: elseBranch.words
  | .whileDo cond body => .keyword .while_ :: inParens cond.words ++ body.words
  | .ret none => [.keyword .return_, .symbol .semicolon]
  | .ret (some value) => .keyword .return_ :: value.words ++ [.symbol .semicolon]
  | .brk => [.keyword .break_, .symbol .semicolon]
  | .cont => [.keyword .continue_, .symbol .semicolon]
  | .print value => .keyword .print :: inParens value.words ++ [.symbol .semicolon]
  | .eval value => value.words ++ [.symbol .semicolon]

def Stmt.wordsOfEach : List Stmt → List (List Word)
  | [] => []
  | s :: ss => s.words :: Stmt.wordsOfEach ss

end

/-- The words of a block of statements. -/
def blockWords (body : List Stmt) : List Word := inBraces (body.map Stmt.words).flatten

def Param.words (p : Param) : List Word := [p.ty.word, .name p.name]

def Member.words : Member → List Word
  | .field ty name => [ty.word, .name name, .symbol .semicolon]
  | .function ty name params body =>
    ty.word :: .name name :: inParens (separated (params.map Param.words)) ++ blockWords body

def ClassDecl.words (d : ClassDecl) : List Word :=
  .keyword .class_ :: .name d.name :: inBraces (d.members.map Member.words).flatten

def Program.words (p : Program) : List Word := (p.classes.map ClassDecl.words).flatten

@[simp] theorem Expr.wordsOfEach_eq_map (es : List Expr) :
    Expr.wordsOfEach es = es.map Expr.words := by
  induction es with
  | nil => rfl
  | cons e es ih => simp [Expr.wordsOfEach, ih]

@[simp] theorem Stmt.wordsOfEach_eq_map (ss : List Stmt) :
    Stmt.wordsOfEach ss = ss.map Stmt.words := by
  induction ss with
  | nil => rfl
  | cons s ss ih => simp [Stmt.wordsOfEach, ih]

/-! ## Induction over syntax -/

/-- Induction over expressions, with one hypothesis for all arguments of a call. -/
@[elab_as_elim, induction_eliminator]
theorem Expr.induct {motive : Expr → Prop}
    (int : ∀ value, motive (.int value)) (float : ∀ value, motive (.float value))
    (string : ∀ value, motive (.string value)) (null : motive .null) (this : motive .this)
    (name : ∀ name, motive (.name name))
    (call : ∀ name args, (∀ a ∈ args, motive a) → motive (.call name args))
    (new : ∀ className args, (∀ a ∈ args, motive a) → motive (.new className args))
    (field : ∀ object member, motive object → motive (.field object member))
    (method : ∀ object member args, motive object → (∀ a ∈ args, motive a) →
      motive (.method object member args))
    (binary : ∀ op left right, motive left → motive right → motive (.binary op left right))
    (unary : ∀ op operand, motive operand → motive (.unary op operand))
    (paren : ∀ inner, motive inner → motive (.paren inner)) (e : Expr) : motive e :=
  @Expr.rec motive (fun es => ∀ a ∈ es, motive a) int float string null this name call new field
    method binary unary paren (by simp)
    (fun _ _ head tail => List.forall_mem_cons.mpr ⟨head, tail⟩) e

/-- Induction over statements, with one hypothesis for all statements of a block. -/
@[elab_as_elim, induction_eliminator]
theorem Stmt.induct {motive : Stmt → Prop}
    (block : ∀ body, (∀ s ∈ body, motive s) → motive (.block body))
    (declare : ∀ ty name, motive (.declare ty name))
    (assign : ∀ target value, motive (.assign target value))
    (ifThen : ∀ cond thenBranch, motive thenBranch → motive (.ifThen cond thenBranch))
    (ifElse : ∀ cond thenBranch elseBranch, motive thenBranch → motive elseBranch →
      motive (.ifElse cond thenBranch elseBranch))
    (whileDo : ∀ cond body, motive body → motive (.whileDo cond body))
    (ret : ∀ value, motive (.ret value)) (brk : motive .brk) (cont : motive .cont)
    (print : ∀ value, motive (.print value)) (eval : ∀ value, motive (.eval value)) (s : Stmt) :
    motive s :=
  @Stmt.rec motive (fun ss => ∀ a ∈ ss, motive a) block declare assign ifThen ifElse whileDo ret
    brk cont print eval (by simp)
    (fun _ _ head tail => List.forall_mem_cons.mpr ⟨head, tail⟩) s

end FlatScope
