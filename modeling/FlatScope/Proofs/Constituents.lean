import FlatScope.Proofs.Grouping
import FlatScope.Proofs.Layout
import FlatScope.Proofs.Likeness
import FlatScope.Proofs.Pieces

/-!
# What a piece is made of

A piece tells the kind of its top node, but for the references, and the pieces of that node's
children (`top_of_assemble`). So what is said of pieces can be said of one level of a tree at a
time: the words of a piece are the text of its node with the words of the children put in
(`weave_layout`), and the parts of a grouped piece are grouped (`grouped_parts`).
-/

namespace FlatScope

namespace Piece

/-- The kind of the top node, with no references, and the pieces of its children. -/
def top : Piece → NodeKind × List Piece
  | program p => (.compUnit (p.classes.map fun _ => .null), p.classes.map classDecl)
  | classDecl d => (.classDecl d.name .null, [members d.members])
  | members ms => (.definitions (ms.map fun _ => .null), ms.map member)
  | member (.field ty name) => (.field .null name, [type ty])
  | member (.function ty name ps body) =>
    (.function .null name .null .null, [type ty, params ps, stmt (.block body)])
  | params ps => (.params (ps.map fun _ => .null), ps.map param)
  | param p => (.param .null p.name, [type p.ty])
  | type .int => (.type .int, [])
  | type .float => (.type .float, [])
  | type .string => (.type .string, [])
  | type .void => (.type .void, [])
  | type (.named name) => (.type (.named .null), [expr (.name name)])
  | stmts ss => (.statements (ss.map fun _ => .null), ss.map stmt)
  | stmt (.block body) => (.compound .null, [stmts body])
  | stmt (.declare ty name) => (.declaration .null name, [type ty])
  | stmt (.assign target value) => (.assignment .null .null, [expr target, expr value])
  | stmt (.ifThen cond body) => (.ifThen .null .null, [expr cond, stmt body])
  | stmt (.ifElse cond body other) =>
    (.ifElse .null .null .null, [expr cond, stmt body, stmt other])
  | stmt (.whileDo cond body) => (.whileDo .null .null, [expr cond, stmt body])
  | stmt (.ret none) => (.ret none, [])
  | stmt (.ret (some value)) => (.ret (some .null), [expr value])
  | stmt .brk => (.brk, [])
  | stmt .cont => (.cont, [])
  | stmt (.print value) => (.print .null, [expr value])
  | stmt (.eval value) => (.eval .null, [expr value])
  | exprs es => (.expressions (es.map fun _ => .null), es.map expr)
  | expr (.int value) => (.int (.ofNat value), [])
  | expr (.float value) => (.float value, [])
  | expr (.string value) => (.string value, [])
  | expr .null => (.null, [])
  | expr .this => (.this, [])
  | expr (.name name) => (.identifier name none, [])
  | expr (.call name args) => (.identifier name (some .null), [exprs args])
  | expr (.new className args) => (.new className (some .null), [exprs args])
  | expr (.field object name) => (.accessor .null name none, [expr object])
  | expr (.method object name args) =>
    (.accessor .null name (some .null), [expr object, exprs args])
  | expr (.binary op left right) => (.binary op .null .null, [expr left, expr right])
  | expr (.unary op operand) => (.unary op .null, [expr operand])
  | expr (.paren inner) => (.paren .null, [expr inner])

/-- The piece as it is written. -/
def words : Piece → List Word
  | program p => p.words
  | classDecl d => d.words
  | members ms => (ms.map Member.words).flatten
  | member m => m.words
  | params ps => inParens (separated (ps.map Param.words))
  | param p => p.words
  | type ty => [ty.word]
  | stmts ss => blockWords ss
  | stmt s => s.words
  | exprs es => inParens (separated (es.map Expr.words))
  | expr e => e.words

def grouped : Piece → Bool
  | program p => p.grouped
  | classDecl d => d.grouped
  | members ms => ms.all Member.grouped
  | member m => m.grouped
  | stmts ss => ss.all Stmt.grouped
  | stmt s => s.grouped
  | exprs es => es.all Expr.grouped
  | expr e => e.grouped
  | params _ | param _ | type _ => true

end Piece

/-! ## Taking a piece apart -/

/-- A piece could be assembled in one way only. -/
theorem NodeKind.top_of_assemble {kind : NodeKind} {parts : List Piece} {z : Piece}
    (h : kind.assemble parts = some z) (hlength : kind.children.length = parts.length) :
    z.top = (kind.bare, parts) := by
  have list {α : Type} {unwrap : Piece → Option α} {wrap : α → Piece} {items : List NodeId}
      {as : List α} (f : List NodeId → NodeKind)
      (hwrap : ∀ part a, unwrap part = some a → part = wrap a)
      (hmap : parts.mapM unwrap = some as) (hitems : items.length = parts.length) :
      (f (as.map fun _ => .null), as.map wrap) = (f (items.map fun _ => .null), parts) := by
    obtain rfl := eq_map_of_mapM hwrap hmap
    rw [List.map_const', List.map_const', hitems, List.length_map]
  unfold assemble at h
  split at h
  all_goals first
    | obtain ⟨as, has, rfl⟩ := Option.map_eq_some_iff.mp h
      exact list _ (fun part a ha => by cases part <;> cases ha; rfl) has hlength
    | cases h <;> rfl

namespace Piece

/-- The parts of a grouped piece are grouped. -/
theorem grouped_parts {z : Piece} (h : z.grouped) : z.top.2.all grouped := by
  unfold top
  split
  all_goals
    simp only [grouped, Program.grouped, ClassDecl.grouped, Member.grouped, Stmt.grouped,
      Stmt.groupedAll_eq_all, Expr.grouped, Expr.groupedAll_eq_all, Bool.and_eq_true,
      List.all_cons, List.all_nil, Bool.and_true, List.all_map] at h ⊢ <;>
    first
      | exact h
      | exact List.all_eq_true.mpr fun _ _ => rfl
      | simp only [h, and_self]

end Piece

/-! ## Writing a piece by its parts -/

namespace Slot

/-- The slot without the reference. -/
def bare : Slot → Slot
  | word w => word w
  | child _ => child .null

/-- The words of a node with the words of its children put in. -/
def weave : List Slot → List (List Word) → List Word
  | word w :: slots, parts => w :: weave slots parts
  | child _ :: slots, part :: parts => part ++ weave slots parts
  | child _ :: _, [] => []
  | [], _ => []

variable {items : List NodeId} {parts : List (List Word)}

theorem weave_bare (slots : List Slot) (parts : List (List Word)) :
    weave (slots.map bare) parts = weave slots parts := by
  fun_induction weave slots parts with
  | case1 w slots parts ih => exact congrArg (w :: ·) ih
  | case2 id slots part parts ih => exact congrArg (part ++ ·) ih
  | case3 => rfl
  | case4 => rfl

theorem weave_items (h : items.length = parts.length) (slots : List Slot) :
    weave (items.map child ++ slots) parts = parts.flatten ++ weave slots [] := by
  induction items generalizing parts with
  | nil =>
    obtain rfl := List.length_eq_zero_iff.mp h.symm
    rfl
  | cons item items ih =>
    obtain ⟨part, parts, rfl⟩ := List.exists_cons_of_length_eq_add_one h.symm
    rw [List.flatten_cons, List.append_assoc, ← ih (Nat.succ.inj h)]
    rfl

theorem weave_all (h : items.length = parts.length) :
    weave (items.map child) parts = parts.flatten := by
  have hall := weave_items h []
  rwa [weave, List.append_nil, List.append_nil] at hall

theorem weave_inBraces (h : items.length = parts.length) :
    weave (symbol .leftCurly :: items.map child ++ [symbol .rightCurly]) parts =
      inBraces parts.flatten := congrArg (Word.symbol .leftCurly :: ·) (weave_items h _)

theorem weave_commas (h : items.length = parts.length) (slots : List Slot) :
    weave ((items.flatMap fun id => [symbol .comma, child id]) ++ slots) parts =
      parts.flatMap (Word.symbol .comma :: ·) ++ weave slots [] := by
  induction items generalizing parts with
  | nil =>
    obtain rfl := List.length_eq_zero_iff.mp h.symm
    rfl
  | cons item items ih =>
    obtain ⟨part, parts, rfl⟩ := List.exists_cons_of_length_eq_add_one h.symm
    rw [List.flatMap_cons, List.flatMap_cons, List.append_assoc, List.append_assoc,
      ← ih (Nat.succ.inj h)]
    rfl

theorem weave_listed (h : items.length = parts.length) (slots : List Slot) :
    weave (listed items ++ slots) parts = separated parts ++ weave slots [] := by
  cases items with
  | nil =>
    obtain rfl := List.length_eq_zero_iff.mp h.symm
    rfl
  | cons item items =>
    obtain ⟨part, parts, rfl⟩ := List.exists_cons_of_length_eq_add_one h.symm
    rw [separated, List.append_assoc, ← weave_commas (Nat.succ.inj h)]
    rfl

theorem weave_inParens (h : items.length = parts.length) :
    weave (symbol .leftParen :: listed items ++ [symbol .rightParen]) parts =
      inParens (separated parts) := congrArg (Word.symbol .leftParen :: ·) (weave_listed h _)

end Slot

open Slot

theorem map_child_bare (items : List NodeId) : (items.map child).map Slot.bare =
    (items.map fun _ => (Key.null : NodeId)).map child := by
  rw [List.map_map, List.map_map]
  rfl

theorem listed_bare (items : List NodeId) : (listed items).map Slot.bare =
    listed (items.map fun _ => .null) := by
  cases items with
  | nil => rfl
  | cons item items =>
    show child .null :: List.map Slot.bare _ = child .null :: List.flatMap _ (items.map _)
    rw [List.map_flatMap, List.flatMap_map]
    rfl

/-- The text of a node is the same for all nodes like it. -/
theorem NodeKind.layout_bare (kind : NodeKind) : kind.bare.layout = kind.layout.map Slot.bare := by
  cases kind with
  | compUnit items | definitions items => exact (map_child_bare items).symm
  | params items | expressions items =>
    show _ = List.map Slot.bare (symbol .leftParen :: (listed items ++ [symbol .rightParen]))
    rw [List.map_cons, List.map_append, listed_bare]
    rfl
  | statements items =>
    show _ = List.map Slot.bare (symbol .leftCurly :: (items.map child ++ [symbol .rightCurly]))
    rw [List.map_cons, List.map_append, map_child_bare]
    rfl
  | ret value => cases value <;> rfl
  | identifier _ args | new _ args | accessor _ _ args => cases args <;> rfl
  | type spec => cases spec <;> rfl
  | int value => cases value <;> rfl
  | _ => rfl

/-- The words of a piece are those of its top node and of its parts. -/
theorem Piece.weave_top (z : Piece) : weave z.top.1.layout (z.top.2.map words) = z.words := by
  have length {α : Type} (as : List α) (wrap : α → Piece) :
      (as.map fun _ => (Key.null : NodeId)).length = ((as.map wrap).map words).length := by
    rw [List.length_map, List.length_map, List.length_map]
  unfold top
  split
  -- first the lists, plain, in parentheses and in braces, then the nodes with fixed parts
  all_goals first
    | exact (weave_all (length _ _)).trans (congrArg _ List.map_map)
    | exact (weave_inParens (length _ _)).trans (congrArg (inParens <| separated ·) List.map_map)
    | exact (weave_inBraces (length _ _)).trans (congrArg (inBraces <| List.flatten ·) List.map_map)
    | simp only [NodeKind.layout, Option.toList, List.map_cons, List.map_nil, weave, words,
        ClassDecl.words, Member.words, Param.words, Ty.word, Stmt.words, Expr.words, blockWords,
        inParens, inBraces, Stmt.wordsOfEach_eq_map, Expr.wordsOfEach_eq_map, List.cons_append,
        List.append_assoc, List.nil_append, List.append_nil]

/-- A piece is written as its node is, with its parts in the places of the children. -/
theorem NodeKind.weave_layout {kind : NodeKind} {parts : List Piece} {z : Piece}
    (h : kind.assemble parts = some z) (hlength : kind.children.length = parts.length) :
    weave kind.layout (parts.map Piece.words) = z.words := by
  rw [← weave_bare, ← layout_bare, ← z.weave_top, top_of_assemble h hlength]

end FlatScope
