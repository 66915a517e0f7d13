import Mathlib.Data.List.Forall2
import FlatScope.Compile
import FlatScope.Proofs.Legibility
import FlatScope.Proofs.Lexing
import FlatScope.Proofs.Locations

/-!
# Dumps lose nothing

The names in a parsed source are words of its text (`legible_of_parse`), so the lines of a dump can
be read back, and from the depths of the lines the tree (`matches_of_entries`). Two parsed sources
with equal dumps are thus the same tree, whatever is attached to their nodes: `Ast.SameTree` pairs
their nodes by the paths to them, and these are alike, have the same slots and share pools with the
same others (`sameTree_of_dump_eq`).
-/

namespace FlatScope

namespace Outline

abbrev Entry := Nat × NodeId × Option Node

variable {R : Node → Node → Prop} {depth : Nat} {rest rest' : List Entry}

/-- Trees of one form whose nodes are related one by one. -/
inductive Matches (R : Node → Node → Prop) : Outline → Outline → Prop where
  | node {n n' : Node} {os os' : List Outline} : R n n' → List.Forall₂ (Matches R) os os' →
      Matches R (.node n os) (.node n' os')

/-- Two entries of the same depth with related nodes. -/
def Meets (R : Node → Node → Prop) (e e' : Entry) : Prop :=
  e.1 = e'.1 ∧ ∃ n n', e.2.2 = some n ∧ e'.2.2 = some n' ∧ R n n'

/-- What follows the entries of a tree is no deeper than its top. -/
def Ends (depth : Nat) (rest : List Entry) : Prop := ∀ d ∈ rest.head?.map (·.1), d ≤ depth

theorem head?_entriesOfAll (depth : Nat) (o : Outline) (os : List Outline) (rest : List Entry) :
    (entriesOfAll depth (o :: os) ++ rest).head?.map (·.1) = some depth := by
  cases o <;> rfl

theorem Ends.entriesOfAll (h : Ends depth rest) (os : List Outline) :
    Ends (depth + 1) (entriesOfAll (depth + 1) os ++ rest) := by
  intro d hd
  cases os with
  | nil => exact Nat.le_succ_of_le (h d hd)
  | cons o os =>
    rw [head?_entriesOfAll] at hd
    obtain rfl := Option.some.inj hd
    exact Nat.le_refl _

/-- What meets goes on at the same depth. -/
theorem head?_eq_of_meets {es es' : List Entry} (h : List.Forall₂ (Meets R) es es') :
    es.head?.map (·.1) = es'.head?.map (·.1) := by
  cases h with
  | nil => rfl
  | cons hmeets _ => exact congrArg some hmeets.1

/-- Entries that go on like those of `o` begin with those of a tree that matches it. -/
def Separates (R : Node → Node → Prop) (depth : Nat) (o : Outline) : Prop :=
  ∀ (o' : Outline) (rest rest' : List Entry), Ends depth rest → Ends depth rest' →
    List.Forall₂ (Meets R) (o.entries depth ++ rest) (o'.entries depth ++ rest') →
    Matches R o o' ∧ List.Forall₂ (Meets R) rest rest'

/-- Trees that are told from what follows them are told one from the other. -/
theorem matchesAll_of_entries {os os' : List Outline} (each : ∀ o ∈ os, Separates R (depth + 1) o)
    (hrest : Ends depth rest) (hrest' : Ends depth rest')
    (h : List.Forall₂ (Meets R) (entriesOfAll (depth + 1) os ++ rest)
      (entriesOfAll (depth + 1) os' ++ rest')) :
    List.Forall₂ (Matches R) os os' ∧ List.Forall₂ (Meets R) rest rest' := by
  induction os generalizing os' with
  | nil =>
    cases os' with
    | nil => exact ⟨.nil, h⟩
    | cons o' os' =>
      -- the second list goes on deeper than what follows the first may begin
      have hhead := head?_eq_of_meets h
      rw [head?_entriesOfAll] at hhead
      exact absurd (hrest _ hhead) (Nat.not_succ_le_self depth)
  | cons o os ih =>
    cases os' with
    | nil =>
      have hhead := head?_eq_of_meets h
      rw [head?_entriesOfAll] at hhead
      exact absurd (hrest' _ hhead.symm) (Nat.not_succ_le_self depth)
    | cons o' os' =>
      rw [entriesOfAll, entriesOfAll, List.append_assoc, List.append_assoc] at h
      obtain ⟨hfirst, h⟩ := each o List.mem_cons_self o' _ _ (hrest.entriesOfAll os)
        (hrest'.entriesOfAll os') h
      obtain ⟨hmore, h⟩ := ih (fun o ho => each o (List.mem_cons_of_mem _ ho)) h
      exact ⟨.cons hfirst hmore, h⟩

/-- The depths of the entries tell where a tree ends. -/
theorem separates (R : Node → Node → Prop) (depth : Nat) (o : Outline) : Separates R depth o := by
  induction o generalizing depth with
  | missing id =>
    intro o' rest rest' _ _ h
    cases o' <;> rw [entries, entries, List.cons_append, List.cons_append] at h <;>
      obtain ⟨⟨-, _, _, hn, -⟩, -⟩ := List.forall₂_cons.mp h <;> cases hn
  | node n os ih =>
    intro o' rest rest' hrest hrest' h
    cases o' <;> rw [entries, entries, List.cons_append, List.cons_append] at h <;>
      obtain ⟨⟨-, _, _, hn, hn', hR⟩, h⟩ := List.forall₂_cons.mp h
    case missing => cases hn'
    case node n' os' =>
      cases hn
      cases hn'
      obtain ⟨hall, hrest⟩ :=
        matchesAll_of_entries (fun o ho => ih o ho (depth + 1)) hrest hrest' h
      exact ⟨.node hR hall, hrest⟩

theorem mem_nodes_top (n : Node) (os : List Outline) : n ∈ (node n os).nodes := by
  rw [nodes_node]
  exact List.mem_cons_self

theorem mem_nodes_of_child {n m : Node} {o : Outline} {os : List Outline} (ho : o ∈ os)
    (hm : m ∈ o.nodes) : m ∈ (node n os).nodes := by
  rw [nodes_node]
  exact List.mem_cons_of_mem _ (List.mem_flatMap.mpr ⟨o, ho, hm⟩)

theorem matches_of_entries {o o' : Outline}
    (h : List.Forall₂ (Meets R) (o.entries 0) (o'.entries 0)) : Matches R o o' := by
  have hnil : Ends 0 [] := fun d hd => nomatch hd
  exact (separates R 0 o o' [] [] hnil hnil (by simpa only [List.append_nil] using h)).1

end Outline

namespace Ast

open Outline

variable {ast ast' : Ast} {o o' : Outline} {R : Node → Node → Prop}

theorem Shows.exists_of_mem_entries (h : ast.Shows o) {depth : Nat} {e : Entry}
    (he : e ∈ o.entries depth) : ∃ n ∈ o.nodes, e.2.2 = some n := by
  have hsome : ∃ n, e.2.2 = some n := by
    induction h generalizing depth with
    | node _ _ _ ih =>
      rw [entries, entriesOfAll_eq_flatMap] at he
      rcases List.mem_cons.mp he with rfl | he
      · exact ⟨_, rfl⟩
      · obtain ⟨o, ho, he⟩ := List.mem_flatMap.mp he
        exact ih o ho he
  obtain ⟨n, hn⟩ := hsome
  rw [← filterMap_entries depth o]
  exact ⟨n, List.mem_filterMap.mpr ⟨e, he, hn⟩, hn⟩

/-- The nodes of trees that match are those at the ends of the same paths. -/
theorem Shows.matches_at (h : ast.Shows o) (h' : ast'.Shows o') (hm : Matches R o o')
    (path : List Nat) : (ast.at? o.id path = none ∧ ast'.at? o'.id path = none) ∨
      ∃ n n', n ∈ o.nodes ∧ n' ∈ o'.nodes ∧ ast.at? o.id path = some n.id ∧
        ast'.at? o'.id path = some n'.id ∧ n.kind.children.length = n'.kind.children.length ∧
        R n n' := by
  induction path generalizing o o' with
  | nil =>
    cases hm with
    | @node n n' os os' hR hall =>
      obtain ⟨-, hk, -⟩ := h
      obtain ⟨-, hk', -⟩ := h'
      refine .inr ⟨n, n', mem_nodes_top n os, mem_nodes_top n' os', rfl, rfl, ?_, hR⟩
      rw [hk, hk', List.length_map, List.length_map, hall.length_eq]
  | cons i path ih =>
    cases hm with
    | @node n n' os os' _ hall =>
      obtain ⟨hn, hk, hs⟩ := h
      obtain ⟨hn', hk', hs'⟩ := h'
      rw [Outline.id, Outline.id, at?_cons_eq_bind hn hk, at?_cons_eq_bind hn' hk']
      by_cases hi : i < os.length
      · have hi' : i < os'.length := hall.length_eq ▸ hi
        have ho := List.getElem_mem hi
        have ho' := List.getElem_mem hi'
        rw [List.getElem?_eq_getElem hi, List.getElem?_eq_getElem hi', Option.bind_some,
          Option.bind_some]
        rcases ih (hs _ ho) (hs' _ ho') (hall.get hi hi') with hnone | ⟨m, m', hm, hm', hrest⟩
        · exact .inl hnone
        · exact .inr ⟨m, m', mem_nodes_of_child ho hm, mem_nodes_of_child ho' hm', hrest⟩
      · have hi' : ¬ i < os'.length := hall.length_eq ▸ hi
        rw [List.getElem?_eq_none (Nat.le_of_not_lt hi),
          List.getElem?_eq_none (Nat.le_of_not_lt hi')]
        exact .inl ⟨rfl, rfl⟩

end Ast

/-! ## Reading a dump back -/

/-- Both nodes are in one pool. -/
def Annotations.Shares (facts : Annotations) (id other : NodeId) : Prop :=
  ∃ pool, facts.fetch .pool id = some pool ∧ facts.fetch .pool other = some pool

namespace Dump

open Outline

variable {ast ast' : Ast} {facts facts' : Annotations} {root root' : NodeId}

/-- The line of a place without its end; nothing where no node is. -/
def writtenAt (facts : Annotations) (pools : List PoolId) (e : Entry) : List Char :=
  (e.2.2.map (written facts pools e.1)).getD []

theorem toList_dump (h : ast.Shows (ast.outline root)) (facts : Annotations) :
    (ast.dump facts false root).toList = (((ast.outline root).entries 0).map
      (writtenAt facts (poolsOf facts (ast.outline root).nodes))).flatMap (· ++ ['\n']) := by
  rw [Ast.dump_eq, String.toList_join, lines_eq_map, List.map_map, List.flatMap_map,
    List.flatMap_map]
  refine List.flatMap_congr fun e he => ?_
  obtain ⟨n, -, hn⟩ := h.exists_of_mem_entries he
  obtain ⟨depth, id, node?⟩ := e
  obtain rfl : node? = some n := hn
  exact toList_line facts _ depth id n

theorem isPrintable_of_mem_writtenAt {pools : List PoolId} {o : Outline} (h : ast.Shows o)
    (hlegible : ∀ n ∈ o.nodes, n.kind.Legible) {w : List Char}
    (hw : w ∈ (o.entries 0).map (writtenAt facts pools)) {c : Char} (hc : c ∈ w) :
    Text.isPrintable c := by
  obtain ⟨e, he, rfl⟩ := List.mem_map.mp hw
  obtain ⟨n, hmem, hn⟩ := h.exists_of_mem_entries he
  rw [writtenAt, hn] at hc
  exact isPrintable_of_mem_written (hlegible n hmem) hc

theorem lineFeed_notMem_writtenAt {pools : List PoolId} {o : Outline} (h : ast.Shows o)
    (hlegible : ∀ n ∈ o.nodes, n.kind.Legible) :
    ∀ w ∈ (o.entries 0).map (writtenAt facts pools), '\n' ∉ w :=
  fun _ hw hmem => absurd (isPrintable_of_mem_writtenAt h hlegible hw hmem) (by decide)

/-- Two equal dumps show equal nodes at equal depths, line by line. -/
theorem meets_of_dump_eq (h : ast.Shows (ast.outline root)) (h' : ast'.Shows (ast'.outline root'))
    (hlegible : ∀ n ∈ (ast.outline root).nodes, n.kind.Legible)
    (hlegible' : ∀ n ∈ (ast'.outline root').nodes, n.kind.Legible)
    (heq : ast.dump facts false root = ast'.dump facts' false root') :
    List.Forall₂ (Meets (Shown facts (poolsOf facts (ast.outline root).nodes) facts'
        (poolsOf facts' (ast'.outline root').nodes)))
      ((ast.outline root).entries 0) ((ast'.outline root').entries 0) := by
  have hchars := congrArg String.toList heq
  rw [toList_dump h, toList_dump h'] at hchars
  have hlines := eq_of_terminated '\n' (lineFeed_notMem_writtenAt h hlegible)
    (lineFeed_notMem_writtenAt h' hlegible') hchars
  rw [← List.forall₂_eq_eq_eq, List.forall₂_map_left_iff, List.forall₂_map_right_iff,
    List.forall₂_iff_zip] at hlines
  obtain ⟨hlength, hlines⟩ := hlines
  refine List.forall₂_iff_zip.mpr ⟨hlength, fun {e e'} hpair => ?_⟩
  obtain ⟨he, he'⟩ := List.of_mem_zip hpair
  obtain ⟨n, hmem, hn⟩ := h.exists_of_mem_entries he
  obtain ⟨n', hmem', hn'⟩ := h'.exists_of_mem_entries he'
  have hwritten := hlines hpair
  rw [writtenAt, writtenAt, hn, hn'] at hwritten
  obtain ⟨hdepth, hshown⟩ := shown_of_written (hlegible n hmem) (hlegible' n' hmem') hwritten
  exact ⟨hdepth, n, n', hn, hn', hshown⟩

theorem Shown.symm {pools pools' : List PoolId} {n n' : Node}
    (h : Shown facts pools facts' pools' n n') : Shown facts' pools' facts pools n' n :=
  ⟨h.name.symm, h.detail.symm, h.label.symm, h.slot.symm⟩

/-- Pools of the same number are the same, and that is told by the labels. -/
theorem Shown.shares {nodes' : List Node} {pools : List PoolId} {n m n' m' : Node}
    (hn' : n' ∈ nodes') (h : Shown facts pools facts' (poolsOf facts' nodes') n n')
    (hm : Shown facts pools facts' (poolsOf facts' nodes') m m') (hs : facts.Shares n.id m.id) :
    facts'.Shares n'.id m'.id := by
  obtain ⟨pool, hpool, hother⟩ := hs
  have hlabel := h.label
  have hlabel' := hm.label
  rw [hpool] at hlabel
  rw [hother] at hlabel'
  obtain ⟨pool', hpool', hidx⟩ := Option.map_eq_some_iff.mp hlabel.symm
  obtain ⟨other', hother', hidx'⟩ := Option.map_eq_some_iff.mp hlabel'.symm
  have hmem : pool' ∈ poolsOf facts' nodes' :=
    List.mem_eraseDups.mpr (List.mem_filterMap.mpr ⟨n', hn', hpool'⟩)
  obtain rfl := (List.idxOf_inj hmem).mp (hidx.trans hidx'.symm)
  exact ⟨pool', hpool', hother'⟩

end Dump

namespace Ast

variable {ast ast' : Ast} {facts facts' : Annotations} {root root' id id' : NodeId}

/-- Both nodes are at the end of one path. -/
def Corresponds (ast : Ast) (root : NodeId) (ast' : Ast) (root' id id' : NodeId) : Prop :=
  ∃ path, ast.at? root path = some id ∧ ast'.at? root' path = some id'

/-- One tree twice, in arenas, pools and places in the text of its own. -/
structure SameTree (ast : Ast) (facts : Annotations) (root : NodeId) (ast' : Ast)
    (facts' : Annotations) (root' : NodeId) : Prop where
  /-- Where one of them has a node the other has one. -/
  isSome_at? : ∀ path, (ast.at? root path).isSome = (ast'.at? root' path).isSome
  alike : ∀ id id', Corresponds ast root ast' root' id id' →
    ∃ n n', ast.get? id = some n ∧ ast'.get? id' = some n' ∧ n.kind.Alike n'.kind
  slot_eq : ∀ id id', Corresponds ast root ast' root' id id' →
    facts.fetch .slot id = facts'.fetch .slot id'
  shares_iff : ∀ id id' other other', Corresponds ast root ast' root' id id' →
    Corresponds ast root ast' root' other other' →
    (facts.Shares id other ↔ facts'.Shares id' other')

/-- The names in a parsed source are made of letters, digits and underscores. -/
theorem isWordPart_of_parse {source : Nat} {text : String}
    (h : parse .unit source text = .ok (ast, root)) :
    ast.Shows (ast.outline root) ∧ ∀ n ∈ (ast.outline root).nodes,
      ∀ name, Slot.named name ∈ n.kind.layout → ∀ c ∈ name.toList, Lexer.isWordPart c := by
  have htop : ast.Occupies (.ofText source text) root 0 _ := occupies_of_ofLexemes h
  obtain ⟨-, o, -, -, rfl, hadds, -⟩ := exists_of_ofLexemes h
  have hshows := hadds.shows o List.mem_cons_self
  rw [(outline_of_adds_empty hadds).2]
  refine ⟨hshows, fun n hn name hname => ?_⟩
  obtain ⟨i, j, hoccupies⟩ := htop.exists_of_mem hshows hn
  obtain ⟨m, -, hm, -, hfills⟩ := hoccupies.exists_node
  cases (hshows.get?_of_mem hn).symm.trans hm
  obtain ⟨l, hl, hword⟩ := hfills.exists_of_word hname
  exact Lexer.isWordPart_of_mem_lex hl (Token.eq_of_word? hword)

/-- Every node of a parsed source can be read off its line. -/
theorem legible_of_parse {source : Nat} {text : String}
    (h : parse .unit source text = .ok (ast, root)) :
    ast.Shows (ast.outline root) ∧ ∀ n ∈ (ast.outline root).nodes, n.kind.Legible := by
  obtain ⟨hshows, hnames⟩ := isWordPart_of_parse h
  exact ⟨hshows, fun n hn => NodeKind.legible_of_names fun name hname c hc =>
    isSolid_of_isWordPart (hnames n hn name hname c hc)⟩

/--
A dump loses nothing of what was parsed. If two sources, whatever passes have attached to their
nodes, are dumped alike, then they are one tree: at the end of every path there are nodes alike, in
the same slots, and two of them share a pool in one exactly if they do in the other.
-/
theorem sameTree_of_dump_eq {source source' : Nat} {text text' : String}
    (h : parse .unit source text = .ok (ast, root))
    (h' : parse .unit source' text' = .ok (ast', root'))
    (heq : ast.dump facts false root = ast'.dump facts' false root') :
    SameTree ast facts root ast' facts' root' := by
  obtain ⟨hshows, hlegible⟩ := legible_of_parse h
  obtain ⟨hshows', hlegible'⟩ := legible_of_parse h'
  have hmeets := Dump.meets_of_dump_eq hshows hshows' hlegible hlegible' heq
  have hat := hshows.matches_at hshows' (Outline.matches_of_entries hmeets)
  simp only [id_outline] at hat
  have hpair : ∀ id id', Corresponds ast root ast' root' id id' → ∃ n n',
      n ∈ (ast.outline root).nodes ∧ n' ∈ (ast'.outline root').nodes ∧ n.id = id ∧ n'.id = id' ∧
        n.kind.children.length = n'.kind.children.length ∧
        Dump.Shown facts (Dump.poolsOf facts (ast.outline root).nodes) facts'
          (Dump.poolsOf facts' (ast'.outline root').nodes) n n' := by
    rintro id id' ⟨path, hp, hp'⟩
    rcases hat path with ⟨hnone, -⟩ | ⟨n, n', hn, hn', hid, hid', hcount, hshown⟩
    · rw [hp] at hnone
      cases hnone
    · cases hp.symm.trans hid
      cases hp'.symm.trans hid'
      exact ⟨n, n', hn, hn', rfl, rfl, hcount, hshown⟩
  refine ⟨fun path => ?_, fun id id' hc => ?_, fun id id' hc => ?_,
    fun id id' other other' hc hd => ?_⟩
  · rcases hat path with ⟨hnone, hnone'⟩ | ⟨n, n', -, -, hid, hid', -⟩
    · rw [hnone, hnone']
    · rw [hid, hid']
      rfl
  · obtain ⟨n, n', hn, hn', rfl, rfl, hcount, hshown⟩ := hpair id id' hc
    exact ⟨n, n', hshows.get?_of_mem hn, hshows'.get?_of_mem hn',
      NodeKind.alike_of_shown hshown.name hshown.detail hcount⟩
  · obtain ⟨n, n', -, -, rfl, rfl, -, hshown⟩ := hpair id id' hc
    exact hshown.slot
  · obtain ⟨n, n', hn, hn', rfl, rfl, -, hshown⟩ := hpair id id' hc
    obtain ⟨m, m', -, -, rfl, rfl, -, hother⟩ := hpair other other' hd
    exact ⟨hshown.shares hn' hother, hshown.symm.shares hn hother.symm⟩

/-- The sources differ in their numbers and blanks, the pools in their keys. -/
theorem sameTree_of_dump_eq_respaced : ∃ ast root ast' root' facts pools facts' pools',
    parse .unit 0 "class A { int f(int x) { print(x + 1); } }" = .ok (ast, root) ∧
      parse .unit 7 "class A{int f(int x){print ( x+01 );}}" = .ok (ast', root') ∧
      analyse ast root true .empty .empty = .ok (facts, pools) ∧
      analyse ast' root' true .empty pools = .ok (facts', pools') ∧
      facts.fetch .pool root ≠ facts'.fetch .pool root' ∧
      SameTree ast facts root ast' facts' root' := by
  have hdumps : (match parse .unit 0 "class A { int f(int x) { print(x + 1); } }",
      parse .unit 7 "class A{int f(int x){print ( x+01 );}}" with
    | .ok (ast, root), .ok (ast', root') =>
      match analyse ast root true .empty .empty with
      | .ok (facts, pools) =>
        match analyse ast' root' true .empty pools with
        | .ok (facts', _) =>
          decide (facts.fetch .pool root ≠ facts'.fetch .pool root' ∧
            ast.dump facts false root = ast'.dump facts' false root')
        | .error _ => false
      | .error _ => false
    | _, _ => false) = true := by decide +kernel
  split at hdumps
  · next ast root ast' root' h h' =>
    split at hdumps
    · next facts pools hfacts =>
      split at hdumps
      · next facts' pools' hfacts' =>
        obtain ⟨hkeys, heq⟩ := of_decide_eq_true hdumps
        exact ⟨ast, root, ast', root', facts, pools, facts', pools', h, h', hfacts, hfacts', hkeys,
          sameTree_of_dump_eq h h' heq⟩
      · cases hdumps
    · cases hdumps
  · cases hdumps

end Ast

end FlatScope
