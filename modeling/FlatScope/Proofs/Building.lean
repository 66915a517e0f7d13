import FlatScope.Grammar.Builder
import FlatScope.Proofs.Pieces
import FlatScope.Proofs.Placing
import FlatScope.Proofs.Spans
import FlatScope.Proofs.Unfolding

/-!
# What parsers build

`p.Builds x i j`: from `i` to `j` parser `p` reads a node and adds exactly one tree to the arena,
the tree of that node, which stands for `x`. `p.BuildsEach xs i j` says the same of a list of nodes,
and `p.Forms x i j` of a parser that reads what a node is and leaves making it to `node`. All three
hold whatever was built before, and nothing else is added.
-/

namespace FlatScope.Grammar

open FlatScope.Grammar.Parser

/-- These trees are the children of a node of this kind, which then stands for `x`. -/
def Stands (kind : NodeKind) (os : List Outline) (x : Piece) : Prop :=
  kind.children = os.map Outline.id ∧
    ∃ parts : List Piece, os.map Outline.piece? = parts.map some ∧ kind.assemble parts = some x

namespace Parser

def Builds (p : TreeParser NodeId) (x : Piece) (i j : Input) : Prop :=
  ∀ b : Builder, b.ast.nodes.free = [] →
    ∃ o c, p.Reads i b o.id j c ∧ b.ast.Adds c.ast [o] ∧ o.piece? = some x

def BuildsEach (p : TreeParser (List NodeId)) (xs : List Piece) (i j : Input) : Prop :=
  ∀ b : Builder, b.ast.nodes.free = [] →
    ∃ os c, p.Reads i b (os.map Outline.id) j c ∧ b.ast.Adds c.ast os ∧
      os.map Outline.piece? = xs.map some

def Forms (p : TreeParser NodeKind) (x : Piece) (i j : Input) : Prop :=
  ∀ b : Builder, b.ast.nodes.free = [] →
    ∃ kind os c, p.Reads i b kind j c ∧ b.ast.Adds c.ast os ∧ Stands kind os x

end Parser

variable {i j k l : Input} {x y : Piece} {p : TreeParser NodeId}

/-- Making a node joins the trees of its children to one. -/
theorem exists_add {a : Ast} {b : Builder} {kind : NodeKind} {os : List Outline}
    (h : a.Adds b.ast os) (hs : Stands kind os x) (first next : Nat) :
    ∃ o c, b.add kind first next = (o.id, c) ∧ a.Adds c.ast [o] ∧ o.piece? = some x := by
  obtain ⟨hk, parts, hparts, hx⟩ := hs
  have hadds := h.node hk ⟨b.ast.source, b.startOf first, b.stopBefore next⟩
  refine ⟨_, (b.add kind first next).2, rfl, hadds, ?_⟩
  rw [Outline.piece?_node hparts]
  exact hx

theorem exists_node {a : Ast} {b : Builder} {kind : NodeKind} {os : List Outline}
    (h : a.Adds b.ast os) (hs : Stands kind os x) (first : Nat) (i : Input) :
    ∃ o c, (node first kind).Reads i b o.id i c ∧ a.Adds c.ast [o] ∧ o.piece? = some x := by
  obtain ⟨o, c, hc, hadds, ho⟩ := exists_add h hs first i.pos
  exact ⟨o, c, reads_build.mpr ⟨hc, rfl⟩, hadds, ho⟩

/-- A node of one kind over the trees of another parser's list. -/
theorem Parser.BuildsEach.node {q : TreeParser (List NodeId)} {xs : List Piece}
    (h : q.BuildsEach xs i j) {kind : List NodeId → NodeKind}
    (hk : ∀ items, (kind items).children = items)
    (hx : ∀ items, (kind items).assemble xs = some x) (first : Nat) :
    Parser.Builds (do let items ← q; Grammar.node first (kind items)) x i j := by
  intro b hb
  obtain ⟨os, c, hr, hadds, hos⟩ := h b hb
  obtain ⟨o, d, hnode, hadds', ho⟩ := exists_node hadds ⟨hk _, xs, hos, hx _⟩ first j
  exact ⟨o, d, hr.bind hnode, hadds', ho⟩

theorem forms_leaf {q : TreeParser NodeKind} (kind : NodeKind)
    (h : ∀ b : Builder, q.Reads i b kind j b) (hk : kind.children = [])
    (hx : kind.assemble [] = some x) : q.Forms x i j :=
  fun b hb => ⟨kind, [], b, h b, .refl hb, hk, [], rfl, hx⟩

/-- The kind of a node, and then the node. -/
theorem Parser.Forms.node {q : TreeParser NodeKind} (h : q.Forms x i j) (first : Nat) :
    Parser.Builds (do let kind ← q; Grammar.node first kind) x i j := by
  intro b hb
  obtain ⟨kind, os, c, hr, hadds, hs⟩ := h b hb
  obtain ⟨o, d, hnode, hadds', ho⟩ := exists_node hadds hs first j
  exact ⟨o, d, hr.bind hnode, hadds', ho⟩

theorem Parser.Forms.choice {q : TreeParser NodeKind} (h : q.Forms x i j)
    (ps : List (TreeParser NodeKind)) {qs : List (TreeParser NodeKind)}
    (before : ∀ r ∈ ps, r.Refuses i) :
    (Parser.choice (ps ++ q :: qs)).Forms x i j := by
  intro b hb
  obtain ⟨kind, os, c, hr, hrest⟩ := h b hb
  exact ⟨kind, os, c, hr.choice ps before, hrest⟩

theorem Parser.Builds.choice (h : p.Builds x i j) (ps : List (TreeParser NodeId))
    {qs : List (TreeParser NodeId)} (before : ∀ r ∈ ps, r.Refuses i) :
    (Parser.choice (ps ++ p :: qs)).Builds x i j := by
  intro b hb
  obtain ⟨o, c, hr, hrest⟩ := h b hb
  exact ⟨o, c, hr.choice ps before, hrest⟩

theorem Parser.Builds.named (h : p.Builds x i j) (phrase : Phrase) :
    (Parser.named phrase p).Builds x i j := h

theorem Parser.Builds.position {f : Nat → TreeParser NodeId} (h : (f i.pos).Builds x i j) :
    (do let first ← Parser.position; f first : TreeParser NodeId).Builds x i j := by
  intro b hb
  obtain ⟨o, c, hr, hrest⟩ := h b hb
  exact ⟨o, c, hr.position, hrest⟩

/-! ## Types -/

/-- A type is made where it stands, a class type behind its class name. -/
theorem builds_typeNode (ty : Ty) (index : Nat) (i : Input) :
    (typeNode ty index).Builds (.type ty) i i := by
  intro b hb
  have start := Ast.Adds.refl hb
  -- the four built-in types have no children
  have leaf : ∀ kind : NodeKind, kind.children = [] → kind.assemble [] = some (.type ty) →
      ∃ o c,
        (build fun _ b => b.add kind index (index + 1) : TreeParser NodeId).Reads i b o.id i c ∧
        b.ast.Adds c.ast [o] ∧ o.piece? = some (.type ty) := by
    intro kind hk hx
    obtain ⟨o, c, hc, hadds, ho⟩ := exists_add start ⟨hk, [], rfl, hx⟩ index (index + 1)
    exact ⟨o, c, reads_build.mpr ⟨hc, rfl⟩, hadds, ho⟩
  cases ty with
  | int => exact leaf (.type .int) rfl rfl
  | float => exact leaf (.type .float) rfl rfl
  | string => exact leaf (.type .string) rfl rfl
  | void => exact leaf (.type .void) rfl rfl
  | named name =>
    have hname : Stands (.identifier name none) [] (.expr (.name name)) := ⟨rfl, [], rfl, rfl⟩
    obtain ⟨o, c, hc, hadds, ho⟩ := exists_add start hname index (index + 1)
    have htype : Stands (.type (.named o.id)) [o] (.type (.named name)) :=
      ⟨rfl, [.expr (.name name)], by simp [ho], rfl⟩
    obtain ⟨o', d, hd, hadds', ho'⟩ := exists_add hadds htype index (index + 1)
    refine ⟨o', d, ?_, hadds', ho'⟩
    exact Reads.bind (reads_build.mpr ⟨hc, rfl⟩) (reads_build.mpr ⟨hd, rfl⟩)

/-! ## Lists -/

section

variable {α : Type} {words : α → List Word} {piece : α → Piece} {Q : Input → Prop} {as : List α}

/-- `Q` says behind which places a member may stop. -/
theorem builds_many
    (each : ∀ a ∈ as, ∀ k l, k.rest.length ≤ i.rest.length → Spans k (words a) l → Q l →
      p.Builds (piece a) k l)
    (start : ∀ a ∈ as, ∀ k l, Spans k (words a) l → Q k) (ne : ∀ a ∈ as, words a ≠ [])
    (stop : Q j) (none : p.Refuses j) (h : Spans i (as.map words).flatten j) :
    (many p).BuildsEach (as.map piece) i j := by
  suffices ∀ b : Builder, b.ast.nodes.free = [] → ∃ os c, ReadsEach p i b (os.map Outline.id) j c ∧
      b.ast.Adds c.ast os ∧ os.map Outline.piece? = (as.map piece).map some by
    intro b hb
    obtain ⟨os, c, hr, hrest⟩ := this b hb
    exact ⟨os, c, hr.many, hrest⟩
  intro b hb
  induction as generalizing i b with
  | nil =>
    obtain rfl := spans_nil.mp h
    exact ⟨[], b, .nil none, .refl hb, rfl⟩
  | cons a as ih =>
    obtain ⟨k, ha, has⟩ := spans_append.mp h
    have hlt : k.rest.length < i.rest.length := ha.rest_lt (ne a List.mem_cons_self)
    have hQ : Q k := by
      cases as with
      | nil => exact spans_nil.mp has ▸ stop
      | cons a' as =>
        obtain ⟨l, ha', -⟩ := spans_append.mp has
        exact start a' (by simp) k l ha'
    obtain ⟨o, c, hr, hadds, ho⟩ := each a List.mem_cons_self i k (Nat.le_refl _) ha hQ b hb
    obtain ⟨os, d, hrs, hadds', hos⟩ := ih
      (fun a' ha' l m hl => each a' (List.mem_cons_of_mem _ ha') l m (by omega))
      (fun a' ha' => start a' (List.mem_cons_of_mem _ ha'))
      (fun a' ha' => ne a' (List.mem_cons_of_mem _ ha')) has c hadds.full
    exact ⟨o :: os, d, .cons hr hlt hrs, hadds.trans hadds', by simp [ho, hos]⟩

/-- The same with commas between the members. -/
theorem builds_separatedBy
    (each : ∀ a ∈ as, ∀ k l, k.rest.length ≤ i.rest.length → Spans k (words a) l → Q l →
      p.Builds (piece a) k l)
    (comma : ∀ k, k.next? = some (.symbol .comma) → Q k)
    (stop : Q j) (last : j.next? ≠ some (.symbol .comma)) (none : p.Refuses j)
    (h : Spans i (separated (as.map words)) j) :
    (separatedBy p (symbol .comma)).BuildsEach (as.map piece) i j := by
  intro b hb
  cases as with
  | nil =>
    obtain rfl := spans_nil.mp h
    exact ⟨[], b, reads_separatedBy.mpr (.inl ⟨rfl, none b, rfl⟩), .refl hb, rfl⟩
  | cons a as =>
    rw [List.map_cons, separated, List.flatMap_def, List.map_map] at h
    obtain ⟨k, ha, has⟩ := spans_append.mp h
    have hle := ha.rest_le
    have next : ∀ {ws : List Word} {k l : Input}, Spans k (.symbol .comma :: ws) l →
        k.next? = some (.symbol .comma) := fun h => by
      obtain ⟨_, ht, -⟩ := spans_symbol.mp h
      exact ht.next?
    have hQ : Q k := by
      cases as with
      | nil => exact spans_nil.mp has ▸ stop
      | cons a' as =>
        obtain ⟨l, ha', -⟩ := spans_append.mp has
        exact comma k (next ha')
    have more : (many (do symbol .comma; p)).BuildsEach (as.map piece) k j := by
      refine builds_many (Q := Q) ?_ (fun _ _ k l h => comma k (next h)) (by simp) stop
        ((refuses_symbol last).bind _) has
      intro a' ha' l m hl hs hQ b hb
      obtain ⟨n, hn, hs⟩ := spans_symbol.mp hs
      have hlt := hn.rest_lt
      obtain ⟨o, c, hr, hrest⟩ :=
        each a' (List.mem_cons_of_mem _ ha') n m (by omega) hs hQ b hb
      exact ⟨o, c, .symbol hn hr, hrest⟩
    obtain ⟨o, c, hr, hadds, ho⟩ := each a List.mem_cons_self i k (Nat.le_refl _) ha hQ b hb
    obtain ⟨os, d, hrs, hadds', hos⟩ := more c hadds.full
    refine ⟨o :: os, d, ?_, hadds.trans hadds', by simp [ho, hos]⟩
    exact reads_separatedBy.mpr (.inr ⟨o.id, k, c, os.map Outline.id, rfl, hr, hrs⟩)

end

/-- A list in its brackets. -/
theorem Parser.BuildsEach.between {q : TreeParser (List NodeId)} {xs : List Piece}
    {opening closing : Symbol} (h : q.BuildsEach xs j k) (hj : i.Takes (.symbol opening) j)
    (hl : k.Takes (.symbol closing) l) : (Parser.between opening q closing).BuildsEach xs i l := by
  intro b hb
  obtain ⟨os, c, hr, hrest⟩ := h b hb
  exact ⟨os, c, reads_between.mpr ⟨j, k, hj, hr, hl⟩, hrest⟩

end FlatScope.Grammar
