import FlatScope.Proofs.Spelling
import FlatScope.Proofs.Tiling
import FlatScope.Proofs.Unfolding

/-!
# Where nodes stand in their source

`NodeKind.layout` writes a node out in the order of its source: its own words and, between them, its
children. A node `Covers` the tokens from the first of its text to the last, and `ast.Occupies x id
i j` says that the text of node `id` and of all below it are exactly the tokens from number `i` up
to number `j`, each node on its own stretch of them and placed there. From that alone children stand
inside their parent and one behind the other.
-/

namespace FlatScope

/-- A part of the text of a node. -/
inductive Slot where
  | word (w : Word)
  | child (id : NodeId)

namespace Slot

abbrev symbol (s : Symbol) : Slot := word (.symbol s)

abbrev keyword (k : Keyword) : Slot := word (.keyword k)

abbrev named (name : String) : Slot := word (.name name)

def child? : Slot → Option NodeId
  | word _ => none
  | child id => some id

/-- Children with a comma between them. -/
def listed : List NodeId → List Slot
  | [] => []
  | id :: ids => child id :: ids.flatMap fun id => [symbol .comma, child id]

end Slot

open Slot

/-- The text of a node. No token says a negative number, and nothing is read as an error. -/
def NodeKind.layout : NodeKind → List Slot
  | compUnit items | definitions items => items.map child
  | classDecl name members =>
    [keyword .class_, named name, symbol .leftCurly, child members, symbol .rightCurly]
  | field ty name | declaration ty name => [child ty, named name, symbol .semicolon]
  | function ty name ps body => [child ty, named name, child ps, child body]
  | params items | expressions items =>
    symbol .leftParen :: listed items ++ [symbol .rightParen]
  | param ty name => [child ty, named name]
  | type .int => [keyword .int]
  | type .float => [keyword .float]
  | type .string => [keyword .string]
  | type .void => [keyword .void]
  | type (.named id) => [child id]
  | statements items => symbol .leftCurly :: items.map child ++ [symbol .rightCurly]
  | compound stmts => [child stmts]
  | assignment target value => [child target, symbol .assign, child value, symbol .semicolon]
  | ifThen cond body =>
    [keyword .if_, symbol .leftParen, child cond, symbol .rightParen, child body]
  | ifElse cond body other =>
    [keyword .if_, symbol .leftParen, child cond, symbol .rightParen, child body, keyword .else_,
      child other]
  | whileDo cond body =>
    [keyword .while_, symbol .leftParen, child cond, symbol .rightParen, child body]
  | ret value => keyword .return_ :: value.toList.map child ++ [symbol .semicolon]
  | brk => [keyword .break_, symbol .semicolon]
  | cont => [keyword .continue_, symbol .semicolon]
  | print value =>
    [keyword .print, symbol .leftParen, child value, symbol .rightParen, symbol .semicolon]
  | eval value => [child value, symbol .semicolon]
  | int (.ofNat value) => [word (.int value)]
  | float value => [word (.float value)]
  | string value => [word (.text value)]
  | null => [keyword .null]
  | this => [keyword .this]
  | identifier name args => named name :: args.toList.map child
  | new name args => keyword .new :: named name :: args.toList.map child
  | accessor object name args => child object :: symbol .dot :: named name :: args.toList.map child
  | binary op left right => [child left, symbol op.symbol, child right]
  | unary op operand => [symbol op.symbol, child operand]
  | paren inner => [symbol .leftParen, child inner, symbol .rightParen]
  | int (.negSucc _) | error => []

theorem filterMap_map_child (ids : List NodeId) : (ids.map child).filterMap child? = ids := by
  rw [List.filterMap_map]
  exact List.filterMap_some

theorem filterMap_listed (ids : List NodeId) : (listed ids).filterMap child? = ids := by
  cases ids with
  | nil => rfl
  | cons id ids =>
    show id :: (ids.flatMap fun id => [symbol .comma, child id]).filterMap child? = id :: ids
    rw [List.filterMap_flatMap]
    exact congrArg _ (List.flatMap_singleton' ids)

/-- The children stand in the text in their order. -/
theorem NodeKind.filterMap_layout (kind : NodeKind) :
    kind.layout.filterMap child? = kind.children := by
  have closed : ∀ (ids : List NodeId) (slots : List Slot) (s : Symbol),
      slots.filterMap child? = ids → (slots ++ [symbol s]).filterMap child? = ids := by
    intro ids slots s h
    rw [List.filterMap_append, h]
    exact List.append_nil ids
  cases kind with
  | compUnit items | definitions items => exact filterMap_map_child items
  | params items | expressions items => exact closed _ _ _ (filterMap_listed items)
  | statements items => exact closed _ _ _ (filterMap_map_child items)
  | ret value => exact closed _ _ _ (filterMap_map_child value.toList)
  | identifier _ args | new _ args => exact filterMap_map_child args.toList
  | accessor object _ args => exact congrArg (object :: ·) (filterMap_map_child args.toList)
  | type spec => cases spec <;> rfl
  | int value => cases value <;> rfl
  | _ => rfl

/-! ## Stretches of tokens -/

/-- A source: its number, its length in bytes and its tokens. -/
structure Lexed where
  source : Nat
  length : Nat
  lexemes : List Lexeme

def Lexed.ofText (source : Nat) (text : String) : Lexed :=
  ⟨source, text.utf8ByteSize, Lexer.lex text.toList⟩

/-- The tokens from number `i` up to number `j` say the slots; `P` tells where children stand. -/
inductive Fills (x : Lexed) (P : NodeId → Nat → Nat → Prop) : List Slot → Nat → Nat → Prop where
  | nil (i : Nat) : Fills x P [] i i
  | word {l : Lexeme} {w : Word} {slots : List Slot} {i j : Nat} : x.lexemes[i]? = some l →
      l.token.word? = some w → Fills x P slots (i + 1) j → Fills x P (.word w :: slots) i j
  | child {id : NodeId} {slots : List Slot} {i j k : Nat} : P id i j → Fills x P slots j k →
      Fills x P (.child id :: slots) i k

/-- Where a node is placed whose text are the tokens from number `i` up to number `j`. -/
inductive Covers (x : Lexed) (n : Node) : (i j : Nat) → Prop where
  /-- From the start of the first token to the end of the last. -/
  | tokens {i k : Nat} {first last : Lexeme} : x.lexemes[i]? = some first →
      x.lexemes[i + k]? = some last → n.loc = ⟨x.source, first.start, last.stop⟩ →
      Covers x n i (i + k + 1)
  /-- The definitions of an empty class body begin behind their end. -/
  | noMembers {i : Nat} {opening closing : Lexeme} : n.kind = .definitions [] →
      x.lexemes[i]? = some opening → opening.token = .symbol .leftCurly →
      x.lexemes[i + 1]? = some closing → closing.token = .symbol .rightCurly →
      n.loc = ⟨x.source, closing.start, opening.stop⟩ → Covers x n (i + 1) (i + 1)
  /-- A source without tokens is a unit at its end. -/
  | noClasses : n.kind = .compUnit [] → x.lexemes = [] → n.loc = ⟨x.source, x.length, x.length⟩ →
      Covers x n 0 0

/-- Node `id` and all below it are the tokens from number `i` up to number `j`, placed there. -/
inductive Ast.Occupies (ast : Ast) (x : Lexed) : (id : NodeId) → (i j : Nat) → Prop where
  | node {n : Node} {i j : Nat} : ast.get? n.id = some n → Covers x n i j →
      Fills x (ast.Occupies x) n.kind.layout i j → ast.Occupies x n.id i j

/-- Every node of the tree below `root` is placed on its text, and the whole tree on the source. -/
structure Ast.Located (ast : Ast) (x : Lexed) (root : NodeId) : Prop where
  top : ast.Occupies x root 0 x.lexemes.length
  /-- The stretch of a node is the one that its parent's text leaves to it. -/
  occupies : ∀ id n, ast.get? id = some n → ∃ i j, ast.Occupies x id i j
  source : ∀ id n, ast.get? id = some n → n.loc.source = x.source
  inside : ∀ id n, ast.get? id = some n → ∀ child ∈ n.kind.children,
    ∃ m, ast.get? child = some m ∧ n.loc.start ≤ m.loc.start ∧ m.loc.stop ≤ n.loc.stop
  behind : ∀ id n, ast.get? id = some n → n.kind.children.Pairwise fun c d =>
    ∃ m m', ast.get? c = some m ∧ ast.get? d = some m' ∧ m.loc.stop ≤ m'.loc.start

variable {x : Lexed} {P Q : NodeId → Nat → Nat → Prop} {slots : List Slot} {i j k : Nat}

namespace Fills

theorem append {slots' : List Slot} (h : Fills x P slots i j) (h' : Fills x P slots' j k) :
    Fills x P (slots ++ slots') i k := by
  induction h with
  | nil => exact h'
  | word hl hw _ ih => exact .word hl hw (ih h')
  | child hid _ ih => exact .child hid (ih h')

theorem mono (h : Fills x P slots i j) (hPQ : ∀ id i j, P id i j → Q id i j) :
    Fills x Q slots i j := by
  induction h with
  | nil i => exact .nil i
  | word hl hw _ ih => exact .word hl hw ih
  | child hid _ ih => exact .child (hPQ _ _ _ hid) ih

theorem le (h : Fills x P slots i j) (hP : ∀ id i j, P id i j → i ≤ j) : i ≤ j := by
  induction h with
  | nil => exact Nat.le_refl _
  | word _ _ _ ih => omega
  | child hid _ ih => exact Nat.le_trans (hP _ _ _ hid) ih

theorem lt (h : Fills x P slots i j) (hP : ∀ id i j, P id i j → i < j) (ne : slots ≠ []) :
    i < j := by
  have hle : ∀ id i j, P id i j → i ≤ j := fun id i j hid => Nat.le_of_lt (hP id i j hid)
  cases h with
  | nil => exact absurd rfl ne
  | word _ _ hrest => exact hrest.le hle
  | child hid hrest => exact Nat.lt_of_lt_of_le (hP _ _ _ hid) (hrest.le hle)

theorem eq_of_nil (h : Fills x P [] i j) : i = j := by
  cases h
  rfl

/-- Every child stands somewhere inside. -/
theorem exists_of_mem (h : Fills x P slots i j) (hP : ∀ id i j, P id i j → i ≤ j) {id : NodeId}
    (hid : id ∈ slots.filterMap child?) : ∃ i' j', i ≤ i' ∧ j' ≤ j ∧ P id i' j' := by
  induction h with
  | nil => cases hid
  | word _ _ _ ih =>
    obtain ⟨i', j', hi, hj, hP⟩ := ih hid
    exact ⟨i', j', by omega, hj, hP⟩
  | @child id' slots i j k hid' hrest ih =>
    rcases List.mem_cons.mp hid with rfl | hid
    · exact ⟨i, j, Nat.le_refl i, hrest.le hP, hid'⟩
    · obtain ⟨i', j', hi, hj, hid⟩ := ih hid
      exact ⟨i', j', Nat.le_trans (hP _ _ _ hid') hi, hj, hid⟩

/-- Every word of the text is said by a token. -/
theorem exists_of_word (h : Fills x P slots i j) {w : Word} (hw : .word w ∈ slots) :
    ∃ l ∈ x.lexemes, l.token.word? = some w := by
  induction h with
  | nil => cases hw
  | word hl hword _ ih =>
    rcases List.mem_cons.mp hw with heq | hw
    · cases heq
      exact ⟨_, List.mem_of_getElem? hl, hword⟩
    · exact ih hw
  | child _ _ ih =>
    rcases List.mem_cons.mp hw with heq | hw
    · cases heq
    · exact ih hw

/-- The children stand one behind the other. -/
theorem pairwise (h : Fills x P slots i j) (hP : ∀ id i j, P id i j → i ≤ j) :
    (slots.filterMap child?).Pairwise fun id id' =>
      ∃ i j i' j', P id i j ∧ j ≤ i' ∧ P id' i' j' := by
  induction h with
  | nil => exact .nil
  | word _ _ _ ih => exact ih
  | child hid hrest ih =>
    refine .cons (fun id' hid' => ?_) ih
    obtain ⟨i', j', hle, -, hid'⟩ := hrest.exists_of_mem hP hid'
    exact ⟨_, _, i', j', hid, hle, hid'⟩

end Fills

/-! ## Inside and behind -/

namespace Lexed

/-- The tokens are not empty, and none begins before the one before it ends. -/
structure Ordered (x : Lexed) : Prop where
  lt : ∀ l ∈ x.lexemes, l.start < l.stop
  pairwise : x.lexemes.Pairwise fun l m => l.stop ≤ m.start

theorem ordered_ofText (source : Nat) (text : String) : (ofText source text).Ordered := by
  obtain ⟨hspan, hpairwise, -⟩ := Lexer.tiles_locate source text
  refine ⟨fun l hl => ?_, ?_⟩
  · exact (hspan _ (List.mem_map_of_mem hl)).2.1
  · exact List.pairwise_map.mp hpairwise

variable {l m : Lexeme}

theorem Ordered.le_of_lt (h : x.Ordered) (hi : x.lexemes[i]? = some l) (hj : x.lexemes[j]? = some m)
    (hij : i < j) : l.stop ≤ m.start := by
  obtain ⟨hilt, rfl⟩ := List.getElem?_eq_some_iff.mp hi
  obtain ⟨hjlt, rfl⟩ := List.getElem?_eq_some_iff.mp hj
  exact List.pairwise_iff_getElem.mp h.pairwise i j hilt hjlt hij

theorem Ordered.start_le (h : x.Ordered) (hi : x.lexemes[i]? = some l)
    (hj : x.lexemes[j]? = some m) (hij : i ≤ j) : l.start ≤ m.start := by
  rcases Nat.lt_or_eq_of_le hij with hlt | rfl
  · exact Nat.le_trans (h.lt l (List.mem_of_getElem? hi)).le (h.le_of_lt hi hj hlt)
  · cases hi.symm.trans hj
    exact Nat.le_refl _

theorem Ordered.stop_le (h : x.Ordered) (hi : x.lexemes[i]? = some l)
    (hj : x.lexemes[j]? = some m) (hij : i ≤ j) : l.stop ≤ m.stop := by
  rcases Nat.lt_or_eq_of_le hij with hlt | rfl
  · exact Nat.le_trans (h.le_of_lt hi hj hlt) (h.lt m (List.mem_of_getElem? hj)).le
  · cases hi.symm.trans hj
    exact Nat.le_refl _

end Lexed

namespace Covers

variable {n m : Node} {i' j' : Nat}

theorem le (h : Covers x n i j) : i ≤ j := by
  cases h <;> omega

theorem source_eq (h : Covers x n i j) : n.loc.source = x.source := by
  cases h with
  | tokens _ _ hloc | noMembers _ _ _ _ _ hloc | noClasses _ _ hloc => rw [hloc]

/-- A node with text is placed by its first token and its last. -/
theorem exists_of_lt (h : Covers x n i j) (hlt : i < j) : ∃ first last,
    x.lexemes[i]? = some first ∧ x.lexemes[j - 1]? = some last ∧
      n.loc = ⟨x.source, first.start, last.stop⟩ := by
  cases h with
  | tokens hfirst hlast hloc => exact ⟨_, _, hfirst, hlast, hloc⟩
  | noMembers | noClasses => omega

/-- Only what has no children at all has no text. -/
theorem lt_of_child (h : Covers x n i j) {id : NodeId} (hid : id ∈ n.kind.children) : i < j := by
  cases h with
  | tokens => omega
  | noMembers hk | noClasses hk =>
    rw [hk] at hid
    cases hid

/-- A node begins with a token of its text, or with the one behind it, and ends likewise. -/
theorem exists_token (h : Covers x n i j) (ne : x.lexemes ≠ []) : ∃ p q first last,
    x.lexemes[p]? = some first ∧ x.lexemes[q]? = some last ∧ i ≤ p ∧ q < j ∧
      n.loc = ⟨x.source, first.start, last.stop⟩ := by
  cases h with
  | @tokens i k first last hfirst hlast hloc =>
    exact ⟨i, i + k, first, last, hfirst, hlast, by omega, by omega, hloc⟩
  | @noMembers i opening closing _ ho _ hc _ hloc =>
    exact ⟨i + 1, i, closing, opening, hc, ho, by omega, by omega, hloc⟩
  | noClasses _ hnil => exact absurd hnil ne

theorem inside (h : Covers x n i j) (hx : x.Ordered) (h' : Covers x m i' j') (hlt : i < j)
    (hi : i ≤ i') (hj : j' ≤ j) : n.loc.start ≤ m.loc.start ∧ m.loc.stop ≤ n.loc.stop := by
  obtain ⟨first, last, hfirst, hlast, hloc⟩ := h.exists_of_lt hlt
  have ne : x.lexemes ≠ [] := List.ne_nil_of_mem (List.mem_of_getElem? hfirst)
  obtain ⟨p, q, first', last', hp, hq, hip, hqj, hloc'⟩ := h'.exists_token ne
  rw [hloc, hloc']
  exact ⟨hx.start_le hfirst hp (by omega), hx.stop_le hq hlast (by omega)⟩

theorem behind (h : Covers x n i j) (hx : x.Ordered) (h' : Covers x m i' j')
    (ne : x.lexemes ≠ []) (hle : j ≤ i') : n.loc.stop ≤ m.loc.start := by
  obtain ⟨_, q, _, last, -, hlast, -, hqj, hloc⟩ := h.exists_token ne
  obtain ⟨p, _, first, _, hfirst, -, hip, -, hloc'⟩ := h'.exists_token ne
  rw [hloc, hloc']
  exact hx.le_of_lt hlast hfirst (by omega)

end Covers

namespace Ast.Occupies

variable {ast a b : Ast} {id : NodeId}

/-- Induction over what stands in a stretch of tokens, with the children on their own stretches. -/
theorem induct {motive : NodeId → Nat → Nat → Prop}
    (node : ∀ n i j, ast.get? n.id = some n → Covers x n i j →
      Fills x (fun id i j => ast.Occupies x id i j ∧ motive id i j) n.kind.layout i j →
      motive n.id i j)
    (h : ast.Occupies x id i j) : motive id i j :=
  @Occupies.rec ast x (fun id i j _ => motive id i j)
    (fun slots i j _ => Fills x (fun id i j => ast.Occupies x id i j ∧ motive id i j) slots i j)
    (fun hn hc _ ih => node _ _ _ hn hc ih)
    (fun i => .nil i)
    (fun hl hw _ ih => .word hl hw ih)
    (fun hid _ hm ih => .child ⟨hid, hm⟩ ih) id i j h

theorem exists_node (h : ast.Occupies x id i j) : ∃ n, n.id = id ∧ ast.get? id = some n ∧
    Covers x n i j ∧ Fills x (ast.Occupies x) n.kind.layout i j := by
  cases h with
  | node hn hc hf => exact ⟨_, rfl, hn, hc, hf⟩

theorem le (h : ast.Occupies x id i j) : i ≤ j := by
  obtain ⟨n, -, -, hc, -⟩ := h.exists_node
  exact hc.le

/-- Making more nodes moves none. -/
theorem mono (h : a.Occupies x id i j) (keeps : ∀ id n, a.get? id = some n → b.get? id = some n) :
    b.Occupies x id i j := by
  refine h.induct (motive := b.Occupies x) fun n i j hn hc hf => ?_
  exact .node (keeps _ _ hn) hc (hf.mono fun _ _ _ h => h.2)

/-- The nodes below stand inside as well. -/
theorem exists_of_mem {o : Outline} (ho : ast.Shows o) (h : ast.Occupies x o.id i j) {n : Node}
    (hn : n ∈ o.nodes) : ∃ i' j', ast.Occupies x n.id i' j' := by
  induction ho generalizing i j with
  | @node m children hm hk _ ih =>
    rw [Outline.nodes_node] at hn
    rcases List.mem_cons.mp hn with rfl | hn
    · exact ⟨i, j, h⟩
    · obtain ⟨o, ho, hn⟩ := List.mem_flatMap.mp hn
      obtain ⟨m', -, hm', -, hf⟩ := h.exists_node
      cases hm.symm.trans hm'
      have hid : o.id ∈ m.kind.layout.filterMap child? := by
        rw [m.kind.filterMap_layout, hk]
        exact List.mem_map_of_mem ho
      obtain ⟨i', j', -, -, hoc⟩ := hf.exists_of_mem (fun _ _ _ h => h.le) hid
      exact ih o ho hoc hn

variable {n : Node}

/-- A child is placed inside its parent. -/
theorem inside (hx : x.Ordered) (hn : ast.get? id = some n) (h : ast.Occupies x id i j)
    {child : NodeId} (hchild : child ∈ n.kind.children) :
    ∃ m, ast.get? child = some m ∧ n.loc.start ≤ m.loc.start ∧ m.loc.stop ≤ n.loc.stop := by
  obtain ⟨n', -, hn', hc, hf⟩ := h.exists_node
  cases hn.symm.trans hn'
  have hlt := hc.lt_of_child hchild
  rw [← n.kind.filterMap_layout] at hchild
  obtain ⟨i', j', hi, hj, hoc⟩ := hf.exists_of_mem (fun _ _ _ h => h.le) hchild
  obtain ⟨m, -, hm, hcm, -⟩ := hoc.exists_node
  exact ⟨m, hm, hc.inside hx hcm hlt hi hj⟩

/-- Of two children the later one begins behind the earlier one. -/
theorem behind (hx : x.Ordered) (hn : ast.get? id = some n)
    (h : ast.Occupies x id i j) : n.kind.children.Pairwise fun c d =>
      ∃ m m', ast.get? c = some m ∧ ast.get? d = some m' ∧ m.loc.stop ≤ m'.loc.start := by
  obtain ⟨n', -, hn', hc, hf⟩ := h.exists_node
  cases hn.symm.trans hn'
  have hp := hf.pairwise fun _ _ _ h => h.le
  rw [n.kind.filterMap_layout] at hp
  refine hp.imp_of_mem fun {c d} hmem _ hcd => ?_
  obtain ⟨i₁, j₁, i₂, j₂, hoc, hle, hod⟩ := hcd
  obtain ⟨m, -, hm, hcm, -⟩ := hoc.exists_node
  obtain ⟨m', -, hm', hcm', -⟩ := hod.exists_node
  obtain ⟨first, -, hfirst, -⟩ := hc.exists_of_lt (hc.lt_of_child hmem)
  have ne : x.lexemes ≠ [] := List.ne_nil_of_mem (List.mem_of_getElem? hfirst)
  exact ⟨m, m', hm, hm', hcm.behind hx hcm' ne hle⟩

end Ast.Occupies

/-- All places follow from that of the top. -/
theorem Ast.Shows.located {ast : Ast} {o : Outline} (h : ast.Shows o)
    (all : ∀ id n, ast.get? id = some n → n ∈ o.nodes) (hx : x.Ordered)
    (top : ast.Occupies x o.id 0 x.lexemes.length) : ast.Located x o.id := by
  have occupies : ∀ id n, ast.get? id = some n → ∃ i j, ast.Occupies x id i j := by
    intro id n hn
    obtain ⟨i, j, hocc⟩ := top.exists_of_mem h (all id n hn)
    exact ⟨i, j, ast.id_eq id n hn ▸ hocc⟩
  refine ⟨top, occupies, fun id n hn => ?_, fun id n hn => ?_, fun id n hn => ?_⟩ <;>
    obtain ⟨i, j, hocc⟩ := occupies id n hn
  · obtain ⟨n', -, hn', hc, -⟩ := hocc.exists_node
    cases hn.symm.trans hn'
    exact hc.source_eq
  · exact fun child hchild => hocc.inside hx hn hchild
  · exact hocc.behind hx hn

end FlatScope
