import FlatScope.Proofs.Spelling

/-!
# How programs are grouped

Many trees are spelled alike. A grouped one nests operators by the ranks that the grammar gives them
(`BinOp.rank`), those of one rank to the left, and gives an `else` to the nearest `if`.
`Program.regroup` turns any tree into a grouped one that is spelled the same.
-/

namespace FlatScope

/-- The ranks of the operators in the grammar, the loosest first. -/
def BinOp.rank : BinOp → Nat
  | .or => 1
  | .and => 2
  | .eq | .notEq => 3
  | .less | .lessEq | .greater | .greaterEq => 4
  | .add | .sub => 5
  | .mul | .div | .mod => 6

/-- An operator binds as tightly as its rank says. -/
theorem BinOp.level_eq_rank (op : BinOp) : op.level = op.rank := by cases op <;> rfl

namespace Expr

def isBinary : Expr → Bool
  | .binary .. => true
  | _ => false

def isUnary : Expr → Bool
  | .unary .. => true
  | _ => false

/-- No binary operation of a rank below `n`. -/
def bindsAt (n : Nat) : Expr → Bool
  | .binary op _ _ => n ≤ op.rank
  | _ => true

mutual

def grouped : Expr → Bool
  | .call _ args | .new _ args => groupedAll args
  | .field object _ => object.grouped && !object.isBinary && !object.isUnary
  | .method object _ args =>
    object.grouped && !object.isBinary && !object.isUnary && groupedAll args
  | .binary op left right =>
    left.grouped && left.bindsAt op.rank && right.grouped && right.bindsAt (op.rank + 1)
  | .unary _ operand => operand.grouped && !operand.isBinary
  | .paren inner => inner.grouped
  | .int _ | .float _ | .string _ | .null | .this | .name _ => true

def groupedAll : List Expr → Bool
  | [] => true
  | e :: es => e.grouped && groupedAll es

end

@[simp] theorem groupedAll_eq_all (es : List Expr) : groupedAll es = es.all grouped := by
  induction es with
  | nil => rfl
  | cons e es ih => simp [groupedAll, ih]

end Expr

namespace Stmt

/-- Ends in an `if` that an `else` behind it would belong to. -/
def endsOpen : Stmt → Bool
  | .ifThen .. => true
  | .ifElse _ _ elseBranch => elseBranch.endsOpen
  | .whileDo _ body => body.endsOpen
  | _ => false

mutual

def grouped : Stmt → Bool
  | .block body => groupedAll body
  | .assign target value => target.grouped && value.grouped
  | .ifThen cond thenBranch => cond.grouped && thenBranch.grouped
  | .ifElse cond thenBranch elseBranch =>
    cond.grouped && thenBranch.grouped && !thenBranch.endsOpen && elseBranch.grouped
  | .whileDo cond body => cond.grouped && body.grouped
  | .ret (some value) | .print value | .eval value => value.grouped
  | .declare .. | .ret none | .brk | .cont => true

def groupedAll : List Stmt → Bool
  | [] => true
  | s :: ss => s.grouped && groupedAll ss

end

@[simp] theorem groupedAll_eq_all (ss : List Stmt) : groupedAll ss = ss.all grouped := by
  induction ss with
  | nil => rfl
  | cons s ss ih => simp [groupedAll, ih]

end Stmt

def Member.grouped : Member → Bool
  | .field .. => true
  | .function _ _ _ body => body.all Stmt.grouped

def ClassDecl.grouped (d : ClassDecl) : Bool := d.members.all Member.grouped

def Program.grouped (p : Program) : Bool := p.classes.all ClassDecl.grouped

/-! ## Regrouping expressions -/

namespace Expr

/-- Puts an operator and an operand behind an expression. -/
def append : Expr → BinOp → Expr → Expr
  | .binary o left right, op, operand =>
    if o.rank < op.rank then .binary o left (right.append op operand)
    else .binary op (.binary o left right) operand
  | e, op, operand => .binary op e operand

/-- Puts an operator and an expression behind an expression, one operand after the other. -/
def join : Expr → BinOp → Expr → Expr
  | left, op, .binary o r s => join (join left op r) o s
  | left, op, operand => left.append op operand

/-- Puts a prefix operator before an expression; it takes the first operand. -/
def prefixed (op : UnOp) : Expr → Expr
  | .binary o left right => .binary o (left.prefixed op) right
  | e => .unary op e

/-- Puts a member access behind an expression; it takes the last operand. -/
def accessed (access : Expr → Expr) : Expr → Expr
  | .binary o left right => .binary o left (right.accessed access)
  | .unary o operand => .unary o (operand.accessed access)
  | e => access e

mutual

def regroup : Expr → Expr
  | .call n args => .call n (regroupAll args)
  | .new className args => .new className (regroupAll args)
  | .field object member => object.regroup.accessed (.field · member)
  | .method object member args =>
    object.regroup.accessed (.method · member (regroupAll args))
  | .binary op left right => join left.regroup op right.regroup
  | .unary op operand => operand.regroup.prefixed op
  | .paren inner => .paren inner.regroup
  | .int value => .int value
  | .float value => .float value
  | .string value => .string value
  | .null => .null
  | .this => .this
  | .name n => .name n

def regroupAll : List Expr → List Expr
  | [] => []
  | e :: es => e.regroup :: regroupAll es

end

@[simp] theorem regroupAll_eq_map (es : List Expr) : regroupAll es = es.map regroup := by
  induction es with
  | nil => rfl
  | cons e es ih => simp [regroupAll, ih]

theorem words_append (e : Expr) (op : BinOp) (operand : Expr) :
    (e.append op operand).words = e.words ++ .symbol op.symbol :: operand.words := by
  induction e with
  | binary o left right _ ih =>
    simp only [append]
    split
    · simp [words, ih]
    · simp [words]
  | _ => simp [append, words]

theorem words_join (left : Expr) (op : BinOp) (right : Expr) :
    (join left op right).words = left.words ++ .symbol op.symbol :: right.words := by
  induction right generalizing left op with
  | binary o r s ihr ihs => simp [join, words, ihr, ihs]
  | _ => simp only [join, words_append]

theorem words_prefixed (op : UnOp) (e : Expr) :
    (e.prefixed op).words = .symbol op.symbol :: e.words := by
  induction e with
  | binary o left right ih _ => simp [prefixed, words, ih]
  | _ => simp [prefixed, words]

theorem words_accessed {access : Expr → Expr} {suffix : List Word}
    (h : ∀ e, (access e).words = e.words ++ suffix) (e : Expr) :
    (e.accessed access).words = e.words ++ suffix := by
  induction e with
  | binary o left right _ ih => simp [accessed, words, ih]
  | unary o operand ih => simp [accessed, words, ih]
  | _ => simp [accessed, h]

theorem words_regroup (e : Expr) : e.regroup.words = e.words := by
  induction e with
  | call n args ih =>
    have key : args.map (words ∘ regroup) = args.map words := List.map_congr_left ih
    simp [regroup, words, key]
  | new className args ih =>
    have key : args.map (words ∘ regroup) = args.map words := List.map_congr_left ih
    simp [regroup, words, key]
  | field object member ih =>
    rw [regroup, words_accessed (fun _ => by rw [words]), ih]
    rfl
  | method object member args ih iha =>
    have key : args.map (words ∘ regroup) = args.map words := List.map_congr_left iha
    rw [regroup, words_accessed (fun _ => by rw [words]), ih]
    simp [words, key]
  | binary op left right ihl ihr => simp [regroup, words_join, words, ihl, ihr]
  | unary op operand ih => simp [regroup, words_prefixed, words, ih]
  | paren inner ih => simp [regroup, words, ih]
  | _ => rfl

theorem bindsAt_append {n : Nat} {e operand : Expr} {op : BinOp} (h : e.bindsAt n)
    (hop : n ≤ op.rank) : (e.append op operand).bindsAt n := by
  cases e with
  | binary o left right =>
    simp only [append]
    split
    · exact h
    · simpa [bindsAt] using hop
  | _ => simpa [append, bindsAt] using hop

theorem bindsAt_of_not_isBinary {e : Expr} (h : e.isBinary = false) (n : Nat) : e.bindsAt n := by
  cases e with
  | binary => simp [isBinary] at h
  | _ => rfl

theorem grouped_append {e operand : Expr} (op : BinOp) (he : e.grouped)
    (ho : operand.grouped) (hb : operand.isBinary = false) : (e.append op operand).grouped := by
  have top : ∀ e', e'.grouped → e'.bindsAt op.rank → (Expr.binary op e' operand).grouped :=
    fun e' hg hl => by simp only [grouped, hg, hl, ho, bindsAt_of_not_isBinary hb, Bool.and_self]
  induction e with
  | binary o left right _ ih =>
    simp only [append]
    split
    · next hlt =>
      simp only [grouped, Bool.and_eq_true] at he ⊢
      exact ⟨⟨he.1.1, ih he.1.2⟩, bindsAt_append he.2 (by omega)⟩
    · next hle => exact top _ he (by simpa [bindsAt] using hle)
  | _ => exact top _ he rfl

theorem grouped_join {left right : Expr} (op : BinOp) (hl : left.grouped) (hr : right.grouped) :
    (join left op right).grouped := by
  induction right generalizing left op with
  | binary o r s ihr ihs =>
    simp only [grouped, Bool.and_eq_true] at hr
    exact ihs o (ihr op hl hr.1.1.1) hr.1.2
  | _ => simp only [join]; exact grouped_append op hl hr rfl

theorem bindsAt_prefixed (n : Nat) (op : UnOp) (e : Expr) :
    (e.prefixed op).bindsAt n = e.bindsAt n := by
  cases e <;> rfl

theorem grouped_prefixed {e : Expr} (op : UnOp) (h : e.grouped) : (e.prefixed op).grouped := by
  induction e with
  | binary o left right ih _ =>
    simp only [grouped, Bool.and_eq_true, prefixed, bindsAt_prefixed] at h ⊢
    exact ⟨⟨⟨ih h.1.1.1, h.1.1.2⟩, h.1.2⟩, h.2⟩
  | _ => simp_all [prefixed, grouped, isBinary]

theorem bindsAt_accessed {access : Expr → Expr} (h : ∀ e, (access e).isBinary = false) (n : Nat)
    (e : Expr) : (e.accessed access).bindsAt n = e.bindsAt n := by
  cases e with
  | binary | unary => rfl
  | _ => exact bindsAt_of_not_isBinary (h _) n

theorem isBinary_accessed {access : Expr → Expr} (h : ∀ e, (access e).isBinary = false)
    (e : Expr) : (e.accessed access).isBinary = e.isBinary := by
  cases e with
  | binary | unary => rfl
  | _ => exact h _

theorem grouped_accessed {access : Expr → Expr} (hb : ∀ e, (access e).isBinary = false)
    (hg : ∀ e, e.grouped → e.isBinary = false → e.isUnary = false → (access e).grouped)
    {e : Expr} (h : e.grouped) : (e.accessed access).grouped := by
  induction e with
  | binary o left right _ ih =>
    simp only [grouped, Bool.and_eq_true, accessed, bindsAt_accessed hb] at h ⊢
    exact ⟨⟨h.1.1, ih h.1.2⟩, h.2⟩
  | unary o operand ih =>
    simp only [grouped, Bool.and_eq_true, accessed, isBinary_accessed hb] at h ⊢
    exact ⟨ih h.1, h.2⟩
  | _ => exact hg _ h rfl rfl

theorem grouped_regroup (e : Expr) : e.regroup.grouped := by
  induction e with
  | call n args ih => simpa [regroup, grouped] using ih
  | new className args ih => simpa [regroup, grouped] using ih
  | field object member ih =>
    exact grouped_accessed (fun _ => rfl) (fun e hg hb hu => by simp [grouped, hg, hb, hu]) ih
  | method object member args ih iha =>
    refine grouped_accessed (fun _ => rfl) (fun e hg hb hu => ?_) ih
    simpa [grouped, hg, hb, hu] using iha
  | binary op left right ihl ihr => exact grouped_join op ihl ihr
  | unary op operand ih => exact grouped_prefixed op ih
  | paren inner ih => exact ih
  | _ => rfl

end Expr

/-! ## Regrouping statements -/

namespace Stmt

/-- Puts an `else` behind a statement; it goes to the last `if` that is open. -/
def withElse : Stmt → Stmt → Stmt
  | .ifThen cond s, elseBranch =>
    if s.endsOpen then .ifThen cond (s.withElse elseBranch) else .ifElse cond s elseBranch
  | .ifElse cond s t, elseBranch => .ifElse cond s (t.withElse elseBranch)
  | .whileDo cond body, elseBranch => .whileDo cond (body.withElse elseBranch)
  | s, _ => s

mutual

def regroup : Stmt → Stmt
  | .block body => .block (regroupAll body)
  | .declare ty name => .declare ty name
  | .assign target value => .assign target.regroup value.regroup
  | .ifThen cond thenBranch => .ifThen cond.regroup thenBranch.regroup
  | .ifElse cond thenBranch elseBranch =>
    (ifThen cond.regroup thenBranch.regroup).withElse elseBranch.regroup
  | .whileDo cond body => .whileDo cond.regroup body.regroup
  | .ret value => .ret (value.map Expr.regroup)
  | .brk => .brk
  | .cont => .cont
  | .print value => .print value.regroup
  | .eval value => .eval value.regroup

def regroupAll : List Stmt → List Stmt
  | [] => []
  | s :: ss => s.regroup :: regroupAll ss

end

@[simp] theorem regroupAll_eq_map (ss : List Stmt) : regroupAll ss = ss.map regroup := by
  induction ss with
  | nil => rfl
  | cons s ss ih => simp [regroupAll, ih]

theorem words_withElse {s : Stmt} (elseBranch : Stmt) (h : s.endsOpen) :
    (s.withElse elseBranch).words = s.words ++ .keyword .else_ :: elseBranch.words := by
  induction s with
  | ifThen cond s ih =>
    simp only [withElse]
    split
    · next ho => simp [words, ih ho]
    · simp [words]
  | ifElse cond s t _ ih => simp [withElse, words, ih h]
  | whileDo cond body ih => simp [withElse, words, ih h]
  | _ => simp [endsOpen] at h

theorem words_regroup (s : Stmt) : s.regroup.words = s.words := by
  induction s with
  | block body ih =>
    have key : body.map (words ∘ regroup) = body.map words := List.map_congr_left ih
    simp [regroup, words, key]
  | ifElse cond s t ihs iht =>
    rw [regroup, words_withElse _ rfl]
    simp [words, ihs, iht, Expr.words_regroup]
  | ret value => cases value <;> simp [regroup, words, Expr.words_regroup]
  | ifThen cond s ih => simp [regroup, words, ih, Expr.words_regroup]
  | whileDo cond body ih => simp [regroup, words, ih, Expr.words_regroup]
  | _ => simp [regroup, words, Expr.words_regroup]

theorem grouped_withElse {s elseBranch : Stmt} (hs : s.grouped) (he : elseBranch.grouped) :
    (s.withElse elseBranch).grouped := by
  induction s with
  | ifThen cond s ih =>
    simp only [grouped, Bool.and_eq_true] at hs
    simp only [withElse]
    split
    · simp [grouped, hs.1, ih hs.2]
    · next ho => simp [grouped, hs, he, ho]
  | ifElse cond s t _ ih =>
    simp only [grouped, Bool.and_eq_true, withElse] at hs ⊢
    exact ⟨hs.1, ih hs.2⟩
  | whileDo cond body ih =>
    simp only [grouped, Bool.and_eq_true, withElse] at hs ⊢
    exact ⟨hs.1, ih hs.2⟩
  | _ => exact hs

theorem grouped_regroup (s : Stmt) : s.regroup.grouped := by
  induction s with
  | block body ih => simpa [regroup, grouped] using ih
  | ifElse cond s t ihs iht =>
    exact grouped_withElse (by simp [grouped, Expr.grouped_regroup, ihs]) iht
  | ret value => cases value <;> simp [regroup, grouped, Expr.grouped_regroup]
  | ifThen cond s ih => simp [regroup, grouped, ih, Expr.grouped_regroup]
  | whileDo cond body ih => simp [regroup, grouped, ih, Expr.grouped_regroup]
  | _ => simp [regroup, grouped, Expr.grouped_regroup]

end Stmt

/-! ## Regrouping programs -/

def Member.regroup : Member → Member
  | .field ty name => .field ty name
  | .function ty name params body => .function ty name params (body.map Stmt.regroup)

def ClassDecl.regroup (d : ClassDecl) : ClassDecl := ⟨d.name, d.members.map Member.regroup⟩

def Program.regroup (p : Program) : Program := ⟨p.classes.map ClassDecl.regroup⟩

theorem Member.words_regroup (m : Member) : m.regroup.words = m.words := by
  cases m with
  | field ty name => rfl
  | function ty name params body =>
    have key : Stmt.words ∘ Stmt.regroup = Stmt.words := funext Stmt.words_regroup
    simp [regroup, words, blockWords, key]

theorem Member.grouped_regroup (m : Member) : m.regroup.grouped := by
  cases m with
  | field ty name => rfl
  | function ty name params body => simp [regroup, grouped, Stmt.grouped_regroup]

theorem ClassDecl.words_regroup (d : ClassDecl) : d.regroup.words = d.words := by
  have key : Member.words ∘ Member.regroup = Member.words := funext Member.words_regroup
  simp [regroup, words, key]

theorem ClassDecl.grouped_regroup (d : ClassDecl) : d.regroup.grouped := by
  simp [regroup, grouped, Member.grouped_regroup]

theorem Program.words_regroup (p : Program) : p.regroup.words = p.words := by
  have key : ClassDecl.words ∘ ClassDecl.regroup = ClassDecl.words :=
    funext ClassDecl.words_regroup
  simp [regroup, words, key]

theorem Program.grouped_regroup (p : Program) : p.regroup.grouped := by
  simp [regroup, grouped, ClassDecl.grouped_regroup]

end FlatScope
