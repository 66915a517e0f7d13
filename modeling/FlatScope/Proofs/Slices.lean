import FlatScope.Proofs.Constituents
import FlatScope.Proofs.Lossless
import FlatScope.Proofs.Segments

/-!
# Reading a part of a source

Parsing is local. The text of a statement, an expression or a class, cut out of its source, has the
tokens it had there (`exists_slice`), and they are the words of a grouped piece, so they are read as
that piece. Two trees that stand for one piece on the same tokens are the same, but for their ids
and for where the tokens are (`matches_of_piece`). So what is read is what was there
(`parse_slice`).
-/

namespace FlatScope

/-- The token in a text that begins `k` bytes earlier. -/
def Lexeme.shift (k : Nat) (l : Lexeme) : Lexeme :=
  { l with start := l.start + k, stop := l.stop + k }

/-! ## The tokens of a slice -/

namespace Lexer

open Segment

/-- Between the start of a token and the end of another, a text has the tokens it has alone. -/
theorem exists_slice {cs : List Char} (hvalid : ∀ l ∈ lex cs, l.token ≠ .invalid) {i k : Nat}
    {first last : Lexeme} (hfirst : (lex cs)[i]? = some first)
    (hlast : (lex cs)[i + k]? = some last) :
    ∃ before part after, cs = before ++ part ++ after ∧ byteLength before = first.start ∧
      byteLength (before ++ part) = last.stop ∧
      ((lex cs).drop i).take (k + 1) = (lex part).map (·.shift first.start) := by
  obtain ⟨segs, hcuts, rfl⟩ := exists_cuts cs
  have hlex : lex (text segs) = lexemes 0 segs := scan_of_cuts hcuts 0
  rw [hlex] at hvalid hfirst hlast ⊢
  have hsound := valid_of_lexemes hvalid
  obtain ⟨front, s, back, rfl, hs, hfront, hstart, -⟩ := exists_of_getElem?_lexemes hfirst
  rw [Nat.zero_add] at hstart
  have hsplit : lexemes 0 (front ++ s :: back) =
      lexemes 0 front ++ lexemes first.start (s :: back) := by
    rw [lexemes_append, Nat.zero_add, ← hstart]
  rw [hsplit, List.getElem?_append_right (by omega), hfront, Nat.add_sub_cancel_left] at hlast
  obtain ⟨mid, t, rest, hmid, ht, hlength, -, hstop⟩ := exists_of_getElem?_lexemes hlast
  rw [List.append_cons] at hmid
  rw [hmid] at hcuts hsound hsplit ⊢
  obtain ⟨-, hcuts⟩ := cuts_append.mp hcuts
  have hpart : Cuts [] (mid ++ [t]) := by
    refine (cuts_append.mp hcuts).1.exchange (fun s hs => hsound s ?_) (fun s hs => ?_) stops_nil
    · exact List.mem_append_right _ (List.mem_append_left _ hs)
    · rw [List.getLast?_concat] at hs
      exact Option.some.inj hs ▸ ht
  have hlexPart : lex (text (mid ++ [t])) = lexemes 0 (mid ++ [t]) := scan_of_cuts hpart 0
  have hshift := lexemes_add 0 first.start (mid ++ [t])
  rw [Nat.zero_add] at hshift
  have hcount : (lexemes first.start (mid ++ [t])).length = k + 1 := by
    obtain ⟨token, htoken⟩ := Option.isSome_iff_exists.mp ht
    rw [lexemes_append, List.length_append, hlength]
    simp [lexemes, lexeme?, htoken]
  refine ⟨text front, text (mid ++ [t]), text rest, ?_, hstart.symm, ?_, ?_⟩
  · rw [text_append, text_append, List.append_assoc]
  · rw [byteLength_append, hstop, hstart]
  · rw [hsplit, List.drop_left' hfront, lexemes_append, List.take_left' hcount, hlexPart]
    exact hshift

end Lexer

/-! ## The words of a stretch -/

variable {x y : Lexed} {P Q : NodeId → Nat → Nat → Prop} {slots : List Slot} {i j : Nat}

namespace Fills

/-- A text of words only is as long as it has words, and its tokens say them. -/
theorem spells {ws : List Word} (h : Fills x P (ws.map .word) i j) :
    j = i + ws.length ∧ Spells (((x.lexemes.drop i).take ws.length).map (·.token)) ws := by
  induction ws generalizing i with
  | nil => exact ⟨h.eq_of_nil.symm, rfl⟩
  | cons w ws ih =>
    cases h with
    | @word l _ _ _ _ hl hw hrest =>
      obtain ⟨hj, hs⟩ := ih hrest
      obtain ⟨hlt, rfl⟩ := List.getElem?_eq_some_iff.mp hl
      refine ⟨by rw [hj, List.length_cons]; omega, ?_⟩
      rw [List.drop_eq_getElem_cons hlt]
      unfold Spells at hs ⊢
      rw [List.length_cons, List.take_succ_cons, List.map_cons, List.map_cons, List.map_cons, hw,
        hs]

/-- The text of a node with the words of its children in their places. -/
theorem weave (h : Fills x P slots i j) {os : List Outline} {parts : List Piece}
    (hos : slots.filterMap Slot.child? = os.map Outline.id)
    (hparts : os.map Outline.piece? = parts.map some)
    (each : ∀ o ∈ os, ∀ z a b, o.piece? = some z → P o.id a b →
      Fills x Q (z.words.map .word) a b) :
    Fills x Q ((Slot.weave slots (parts.map Piece.words)).map .word) i j := by
  induction h generalizing os parts with
  | nil i => exact .nil i
  | word hl hw _ ih => exact .word hl hw (ih hos hparts each)
  | @child id slots i j k hid _ ih =>
    obtain ⟨o, os, rfl, rfl, hids⟩ := List.map_eq_cons_iff.mp hos.symm
    obtain ⟨z, parts, rfl, hz, hpieces⟩ := List.map_eq_cons_iff.mp hparts.symm
    obtain ⟨hhead, htail⟩ := List.forall_mem_cons.mp each
    show Fills x Q ((z.words ++ Slot.weave slots (parts.map Piece.words)).map .word) i k
    rw [List.map_append]
    exact (hhead z i j hz.symm hid).append (ih hids.symm hpieces.symm htail)

end Fills

namespace Ast

variable {ast ast' : Ast} {o o' : Outline} {z : Piece} {k d : Nat}

theorem length_children {n : Node} {os : List Outline} {parts : List Piece}
    (hk : n.kind.children = os.map Outline.id) (hparts : os.map Outline.piece? = parts.map some) :
    n.kind.children.length = parts.length := by
  have hlength := congrArg List.length hparts
  rwa [List.length_map, List.length_map, ← List.length_map Outline.id, ← hk] at hlength

/-- The tokens of a tree are the words of the piece it stands for. -/
theorem Shows.fills_words (ho : ast.Shows o) (hz : o.piece? = some z)
    (h : ast.Occupies x o.id i j) : Fills x Q (z.words.map .word) i j := by
  induction ho generalizing z i j with
  | @node n os hn hk _ ih =>
    obtain ⟨parts, hparts, hassemble⟩ := Outline.piece?_node_eq_some.mp hz
    obtain ⟨m, -, hm, -, hfills⟩ := h.exists_node
    cases hn.symm.trans hm
    rw [← NodeKind.weave_layout hassemble (length_children hk hparts)]
    refine hfills.weave (n.kind.filterMap_layout.trans hk) hparts fun o ho z a b hz hocc => ?_
    exact ih o ho hz hocc

theorem Shows.length_eq (ho : ast.Shows o) (hz : o.piece? = some z)
    (h : ast.Occupies x o.id i j) : j = i + z.words.length :=
  (ho.fills_words (Q := fun _ _ _ => False) hz h).spells.1

/-- What stands below a node of a grouped piece: a grouped piece on a stretch of its own. -/
theorem Shows.exists_below (ho : ast.Shows o) (hz : o.piece? = some z) (hg : z.grouped)
    (h : ast.Occupies x o.id i j) {n : Node} (hn : n ∈ o.nodes) :
    ∃ o' y i' j', o'.id = n.id ∧ o'.nodes.Sublist o.nodes ∧ ast.Shows o' ∧ o'.piece? = some y ∧
      y.grouped ∧ ast.Occupies x o'.id i' j' := by
  induction ho generalizing z i j with
  | @node m os hm hk hs ih =>
    rw [Outline.nodes_node] at hn ⊢
    rcases List.mem_cons.mp hn with rfl | hn
    · exact ⟨.node n os, z, i, j, rfl, by rw [Outline.nodes_node], .node hm hk hs, hz, hg, h⟩
    · obtain ⟨o, ho, hn⟩ := List.mem_flatMap.mp hn
      obtain ⟨parts, hparts, hassemble⟩ := Outline.piece?_node_eq_some.mp hz
      obtain ⟨y, hy, hoy⟩ := Outline.exists_part_of_mem hparts ho
      have hgy : y.grouped := by
        have hall := Piece.grouped_parts hg
        rw [NodeKind.top_of_assemble hassemble (length_children hk hparts)] at hall
        exact List.all_eq_true.mp hall y hy
      obtain ⟨m', -, hm', -, hfills⟩ := h.exists_node
      cases hm.symm.trans hm'
      have hid : o.id ∈ m.kind.layout.filterMap Slot.child? := by
        rw [m.kind.filterMap_layout, hk]
        exact List.mem_map_of_mem ho
      obtain ⟨a, b, -, -, hocc⟩ := hfills.exists_of_mem (fun _ _ _ h => h.le) hid
      obtain ⟨o', y', i', j', hid', hsub, hrest⟩ := ih o ho hoy hgy hocc hn
      have hin : o.nodes.Sublist (os.flatMap Outline.nodes) := by
        rw [List.flatMap_def]
        exact List.sublist_flatten_of_mem (List.mem_map_of_mem ho)
      exact ⟨o', y', i', j', hid', hsub.trans (hin.trans (List.sublist_cons_self _ _)), hrest⟩

end Ast

/-! ## One piece in two places -/

/-- The same node but for its references, placed `k` bytes further to the front. -/
structure Node.Copies (k : Nat) (n n' : Node) : Prop where
  kind : n'.kind.bare = n.kind.bare
  source : n'.loc.source = n.loc.source
  start : n'.loc.start + k = n.loc.start
  stop : n'.loc.stop + k = n.loc.stop

/-- The tokens of `y` are those of `x` from number `d` on, `k` bytes further to the front. -/
structure Lexed.Slice (x y : Lexed) (d k : Nat) : Prop where
  source : y.source = x.source
  token : ∀ m l, y.lexemes[m]? = some l → x.lexemes[m + d]? = some (l.shift k)

theorem Lexed.slice_of_eq {source length length' d count k : Nat} {ls ls' : List Lexeme}
    (h : (ls.drop d).take count = ls'.map (·.shift k)) :
    Lexed.Slice ⟨source, length, ls⟩ ⟨source, length', ls'⟩ d k := by
  refine ⟨rfl, fun m l hl => ?_⟩
  have hget : ((ls.drop d).take count)[m]? = some (l.shift k) := by
    rw [h, List.getElem?_map]
    exact congrArg _ hl
  rw [List.getElem?_take] at hget
  split at hget
  · rwa [List.getElem?_drop, Nat.add_comm] at hget
  · cases hget

variable {n n' : Node} {i' j' d k : Nat}

/-- Without a text of its own a node is placed between two tokens. -/
theorem Covers.exists_of_eq (h : Covers x n i j) (heq : i = j) (ne : x.lexemes ≠ []) :
    ∃ m opening closing, i = m + 1 ∧ x.lexemes[m]? = some opening ∧
      x.lexemes[m + 1]? = some closing ∧ n.loc = ⟨x.source, closing.start, opening.stop⟩ := by
  cases h with
  | tokens => omega
  | noMembers _ ho _ hc _ hloc => exact ⟨_, _, _, rfl, ho, hc, hloc⟩
  | noClasses _ hnil => exact absurd hnil ne

/-- On the same tokens nodes are placed in the same way. -/
theorem Covers.copies (hs : x.Slice y d k) (hkind : n'.kind.bare = n.kind.bare)
    (ne : y.lexemes ≠ []) (h : Covers x n (i + d) (j + d)) (h' : Covers y n' i j) :
    n.Copies k n' := by
  have place {p q : Nat} {a b a' b' : Lexeme} (ha : x.lexemes[p + d]? = some a)
      (hb : x.lexemes[q + d]? = some b) (hloc : n.loc = ⟨x.source, a.start, b.stop⟩)
      (ha' : y.lexemes[p]? = some a') (hb' : y.lexemes[q]? = some b')
      (hloc' : n'.loc = ⟨y.source, a'.start, b'.stop⟩) : n.Copies k n' := by
    cases ha.symm.trans (hs.token p a' ha')
    cases hb.symm.trans (hs.token q b' hb')
    refine ⟨hkind, ?_, ?_, ?_⟩ <;> rw [hloc, hloc']
    exacts [hs.source, rfl, rfl]
  rcases Nat.lt_or_eq_of_le h'.le with hlt | rfl
  · obtain ⟨a, b, ha, hb, hloc⟩ := h.exists_of_lt (by omega)
    obtain ⟨a', b', ha', hb', hloc'⟩ := h'.exists_of_lt hlt
    rw [Nat.sub_add_comm (by omega)] at hb
    exact place ha hb hloc ha' hb' hloc'
  · obtain ⟨m, a', b', rfl, ha', hb', hloc'⟩ := h'.exists_of_eq rfl ne
    have nex : x.lexemes ≠ [] :=
      List.ne_nil_of_mem (List.mem_of_getElem? (hs.token m a' ha'))
    obtain ⟨m', a, b, hm, ha, hb, hloc⟩ := h.exists_of_eq rfl nex
    obtain rfl : m' = m + d := by omega
    rw [Nat.add_right_comm] at hb
    exact place hb ha hloc hb' ha' hloc'

/-- Two texts with the same words take the same tokens; `each` says so of the children. -/
theorem Fills.forall₂ {R : Outline → Outline → Prop} {slots' : List Slot} {os os' : List Outline}
    {parts : List Piece} (h : Fills x P slots i j) (h' : Fills y Q slots' i' j')
    (hi : i = i' + d) (hslots : slots'.map Slot.bare = slots.map Slot.bare)
    (hos : slots.filterMap Slot.child? = os.map Outline.id)
    (hos' : slots'.filterMap Slot.child? = os'.map Outline.id)
    (hparts : os.map Outline.piece? = parts.map some)
    (hparts' : os'.map Outline.piece? = parts.map some)
    (each : ∀ o ∈ os, ∀ o' ∈ os', ∀ z a b a' b', o.piece? = some z → o'.piece? = some z →
      P o.id a b → Q o'.id a' b' → a = a' + d → b = b' + d ∧ R o o') :
    List.Forall₂ R os os' := by
  induction h generalizing slots' os os' parts i' with
  | nil i =>
    obtain rfl := List.map_eq_nil_iff.mp hslots
    obtain rfl := List.map_eq_nil_iff.mp hos.symm
    obtain rfl := List.map_eq_nil_iff.mp hos'.symm
    exact .nil
  | word hl hw _ ih =>
    cases h' with
    | nil => cases hslots
    | child => cases hslots
    | word hl' hw' hrest' =>
      obtain ⟨-, hslots⟩ := List.cons.inj hslots
      exact ih hrest' (by omega) hslots hos hos' hparts hparts' each
  | @child id slots i j k hid _ ih =>
    cases h' with
    | nil => cases hslots
    | word => cases hslots
    | @child id' slots' i' m k' hid' hrest' =>
      obtain ⟨-, hrest⟩ := List.cons.inj hslots
      obtain ⟨o, os, rfl, rfl, hids⟩ := List.map_eq_cons_iff.mp hos.symm
      obtain ⟨o', os', rfl, rfl, hids'⟩ := List.map_eq_cons_iff.mp hos'.symm
      obtain ⟨z, parts, rfl, hz, hpieces⟩ := List.map_eq_cons_iff.mp hparts.symm
      obtain ⟨hz', hpieces'⟩ := List.cons.inj hparts'
      obtain ⟨hj, hR⟩ := each o List.mem_cons_self o' List.mem_cons_self z i j i' m hz.symm hz'
        hid hid' hi
      refine .cons hR (ih hrest' hj hrest hids.symm hids'.symm hpieces.symm hpieces' ?_)
      exact fun o ho o' ho' => each o (List.mem_cons_of_mem _ ho) o' (List.mem_cons_of_mem _ ho')

namespace Ast

variable {ast ast' : Ast} {o o' : Outline} {z : Piece}

/-- Trees that stand for one piece on the same tokens are one tree. -/
theorem Shows.matches_of_piece (hs : x.Slice y d k) (ne : y.lexemes ≠ []) (ho : ast.Shows o)
    (ho' : ast'.Shows o') (hz : o.piece? = some z) (hz' : o'.piece? = some z)
    (h : ast.Occupies x o.id i j) (h' : ast'.Occupies y o'.id i' j') (hi : i = i' + d) :
    o.Matches (Node.Copies k) o' := by
  induction ho generalizing z o' i j i' j' with
  | @node n os hn hk hshows ih =>
    cases ho' with
    | @node n' os' hn' hk' hshows' =>
      obtain ⟨parts, hparts, hassemble⟩ := Outline.piece?_node_eq_some.mp hz
      obtain ⟨parts', hparts', hassemble'⟩ := Outline.piece?_node_eq_some.mp hz'
      have htop := NodeKind.top_of_assemble hassemble (length_children hk hparts)
      have htop' := NodeKind.top_of_assemble hassemble' (length_children hk' hparts')
      obtain ⟨hkind, rfl⟩ := Prod.mk.inj (htop'.symm.trans htop)
      have hj := (Shows.node hn hk hshows).length_eq hz h
      have hj' := (Shows.node hn' hk' hshows').length_eq hz' h'
      obtain rfl : j = j' + d := by omega
      subst hi
      obtain ⟨m, -, hm, hcovers, hfills⟩ := h.exists_node
      obtain ⟨m', -, hm', hcovers', hfills'⟩ := h'.exists_node
      cases hn.symm.trans hm
      cases hn'.symm.trans hm'
      have hslots : n'.kind.layout.map Slot.bare = n.kind.layout.map Slot.bare := by
        rw [← NodeKind.layout_bare, ← NodeKind.layout_bare, hkind]
      refine .node (hcovers.copies hs hkind ne hcovers') (hfills.forall₂ hfills' rfl hslots
        (n.kind.filterMap_layout.trans hk) (n'.kind.filterMap_layout.trans hk') hparts hparts' ?_)
      intro o ho o' ho' z a b a' b' hz hz' hocc hocc' ha
      have hb := (hshows o ho).length_eq hz hocc
      have hb' := (hshows' o' ho').length_eq hz' hocc'
      exact ⟨by omega, ih o ho (hshows' o' ho') hz hz' hocc hocc' ha⟩

end Ast

/-! ## Reading a piece alone -/

open Grammar Parser

/-- What a node of this kind is read as, if it is read alone. -/
def NodeKind.alone? : NodeKind → Option Entry
  | classDecl .. => some .classDecl
  | compound _ | declaration .. | assignment .. | ifThen .. | ifElse .. | whileDo .. | ret _ | brk
  | cont | print _ | eval _ => some .statement
  | int _ | float _ | string _ | null | this | identifier .. | new .. | accessor .. | binary ..
  | unary .. | paren _ => some .expression
  | _ => none

/-- Only lists can be empty. -/
theorem Covers.lt_of_alone? {e : Entry} (h : Covers x n i j) (he : n.kind.alone? = some e) :
    i < j := by
  cases h with
  | tokens => omega
  | noMembers hkind | noClasses hkind =>
    rw [hkind] at he
    cases he

theorem NodeKind.alone?_bare (kind : NodeKind) : kind.bare.alone? = kind.alone? := by
  cases kind with
  | type spec => cases spec <;> rfl
  | _ => rfl

/-- Statements, expressions and classes are read alone. -/
theorem Piece.cases_of_alone? {z : Piece} {e : Entry} (h : z.top.1.alone? = some e) :
    (e = .statement ∧ ∃ s, z = .stmt s) ∨ (e = .expression ∧ ∃ x, z = .expr x) ∨
      (e = .classDecl ∧ ∃ d, z = .classDecl d) := by
  unfold top at h
  split at h <;> cases h
  all_goals first
    | exact .inl ⟨rfl, _, rfl⟩
    | exact .inr (.inl ⟨rfl, _, rfl⟩)
    | exact .inr (.inr ⟨rfl, _, rfl⟩)

namespace Grammar

/-- The words of a grouped piece and nothing behind them are read as that piece. -/
theorem builds_entry {z : Piece} {e : Entry} (he : z.top.1.alone? = some e) (hg : z.grouped)
    {ts : List Token} (hs : Spells ts z.words) :
    (entry e).Builds z ⟨0, ts⟩ ⟨0 + ts.length, []⟩ := by
  have hspans : Spans ⟨0, ts⟩ z.words ⟨0 + ts.length, []⟩ := spans_iff_spells.mpr ⟨hs, rfl⟩
  rcases Piece.cases_of_alone? he with ⟨rfl, s, rfl⟩ | ⟨rfl, x, rfl⟩ | ⟨rfl, d, rfl⟩
  · exact builds_statement hg hspans fun _ h => nomatch h
  · exact builds_expression hg hspans ⟨nofun, nofun, fun _ h => nomatch h⟩
  · exact builds_classDecl hg hspans

theorem lays_entry {z : Piece} {e : Entry} (he : z.top.1.alone? = some e) :
    (entry e).Lays ([Slot.child ·]) := by
  rcases Piece.cases_of_alone? he with ⟨rfl, -⟩ | ⟨rfl, -⟩ | ⟨rfl, -⟩
  · exact statement_lays
  · exact expression_lays
  · exact classDecl_lays

end Grammar

namespace Ast

/-- Tokens that say words were read. -/
theorem valid_of_spells {lexemes : List Lexeme} {ws : List Word}
    (h : Spells (lexemes.map (·.token)) ws) : ∀ l ∈ lexemes, l.token ≠ .invalid := by
  intro l hl hinvalid
  have hmem : none ∈ ws.map some := by
    rw [← h, ← show Token.word? .invalid = none from rfl, ← hinvalid]
    exact List.mem_map_of_mem (List.mem_map_of_mem hl)
  obtain ⟨w, -, hw⟩ := List.mem_map.mp hmem
  cases hw

/-- What is read from all tokens stands on all of them. -/
theorem occupies_of_lays {e : Entry} (he : (entry e).Lays ([Slot.child ·])) {source length : Nat}
    {lexemes : List Lexeme} {ast : Ast} {root : NodeId}
    (h : ofLexemes e source length lexemes = .ok (ast, root)) :
    ast.Occupies ⟨source, length, lexemes⟩ root 0 lexemes.length := by
  unfold ofLexemes at h
  dsimp only at h
  split at h
  · next root b hr =>
    cases h
    obtain ⟨n, hr⟩ := run_eq_ok.mp hr
    have := composed_entry e
    have hlexed : b.lexed = ⟨source, length, lexemes⟩ := hr.grows.lexed_eq
    have htokens : b.tokens = lexemes.map (·.token) := congrArg (·.lexemes.map (·.token)) hlexed
    have hlies := he.lies hr
    unfold Builder.Lies at hlies
    rw [htokens, hlexed] at hlies
    obtain ⟨⟨hle, hin⟩, hfills⟩ := hlies ⟨Nat.zero_le _, rfl⟩
    have hend : lexemes.length ≤ n := by
      rw [← List.length_map (·.token)]
      exact List.drop_eq_nil_iff.mp (congrArg Input.rest hin).symm
    obtain rfl : n = lexemes.length := by
      rw [List.length_map] at hle
      exact Nat.le_antisymm hle hend
    cases hfills with
    | child hid hrest =>
      cases hrest
      exact hlexed ▸ hid.1
  · cases h

theorem Shows.alone?_top {ast : Ast} {o : Outline} {z : Piece} (ho : ast.Shows o)
    (hz : o.piece? = some z) {n : Node} (hn : ast.get? o.id = some n) :
    z.top.1.alone? = n.kind.alone? := by
  cases ho with
  | @node m os hm hk _ =>
    cases hm.symm.trans hn
    obtain ⟨parts, hparts, hassemble⟩ := Outline.piece?_node_eq_some.mp hz
    rw [NodeKind.top_of_assemble hassemble (length_children hk hparts), NodeKind.alone?_bare]

/-- The text of a grouped piece that is read alone gives its tree again. -/
theorem Shows.exists_copy {source : Nat} {text : String} {ast : Ast} {o : Outline} {z : Piece}
    (hvalid : ∀ l ∈ Lexer.lex text.toList, l.token ≠ .invalid) (ho : ast.Shows o)
    (hz : o.piece? = some z) (hg : z.grouped)
    (hocc : ast.Occupies (.ofText source text) o.id i j) {n : Node}
    (hn : ast.get? o.id = some n) {e : Entry} (he : n.kind.alone? = some e) :
    ∃ before part after, text = before ++ part ++ after ∧ before.utf8ByteSize = n.loc.start ∧
      (before ++ part).utf8ByteSize = n.loc.stop ∧
      ∃ ast' root', parse e source part = .ok (ast', root') ∧
        o.Matches (Node.Copies n.loc.start) (ast'.outline root') := by
  obtain ⟨m, -, hm, hcovers, -⟩ := hocc.exists_node
  cases hn.symm.trans hm
  have hlt : i < j := hcovers.lt_of_alone? he
  obtain ⟨first, last, hfirst, hlast, hloc⟩ := hcovers.exists_of_lt hlt
  obtain ⟨k, rfl⟩ : ∃ k, j = i + k + 1 := ⟨j - i - 1, by omega⟩
  obtain ⟨before, part, after, htext, hbefore, hpart, hslice⟩ :=
    Lexer.exists_slice hvalid hfirst hlast
  have hlength : k + 1 = z.words.length := by
    have := ho.length_eq hz hocc
    omega
  have hspells : Spells ((Lexer.lex part).map (·.token)) z.words := by
    have hall := (ho.fills_words (Q := fun _ _ _ => False) hz hocc).spells.2
    rw [← hlength] at hall
    have htokens := congrArg (List.map Lexeme.token) hslice
    rw [List.map_map] at htokens
    exact (htokens ▸ hall :)
  have hne : Lexer.lex part ≠ [] := by
    intro hnil
    have hcount := congrArg List.length hspells
    rw [hnil, List.map_nil, List.map_nil, List.length_map, ← hlength] at hcount
    cases hcount
  have htop : z.top.1.alone? = some e := (ho.alone?_top hz hn).trans he
  obtain ⟨ast', o', hparse, hadds, hz'⟩ :=
    ofLexemes_of_builds source (Lexer.byteLength part) (builds_entry htop hg hspells)
  rw [hloc]
  refine ⟨.ofList before, .ofList part, .ofList after, ?_, ?_, ?_, ast', o'.id, ?_, ?_⟩
  · rw [← String.ofList_append, ← String.ofList_append, ← htext, String.ofList_toList]
  · rw [Lexer.utf8ByteSize_ofList, hbefore]
  · rw [← String.ofList_append, Lexer.utf8ByteSize_ofList, hpart]
  · rw [parse, String.toList_ofList, Lexer.utf8ByteSize_ofList]
    exact hparse
  · rw [(outline_of_adds_empty hadds).2]
    exact ho.matches_of_piece (Lexed.slice_of_eq hslice) hne (hadds.shows o' List.mem_cons_self)
      hz hz' hocc (occupies_of_lays (lays_entry htop) hparse) (Nat.zero_add i).symm

/--
Parsing is local. A statement, an expression or a class of a parsed source is read again from its
own text alone: the same tree, with places that begin at zero.
-/
theorem parse_slice {source : Nat} {text : String} {ast : Ast} {root : NodeId}
    (h : parse .unit source text = .ok (ast, root)) {id : NodeId} {n : Node}
    (hn : ast.get? id = some n) {e : Entry} (he : n.kind.alone? = some e) :
    ∃ before part after, text = before ++ part ++ after ∧ before.utf8ByteSize = n.loc.start ∧
      (before ++ part).utf8ByteSize = n.loc.stop ∧
      ∃ ast' root', parse e source part = .ok (ast', root') ∧
        (ast.outline id).Matches (Node.Copies n.loc.start) (ast'.outline root') := by
  have top : ast.Occupies (.ofText source text) root 0 _ := occupies_of_ofLexemes h
  obtain ⟨p, o, hg, hspells, rfl, hadds, hp⟩ := exists_of_ofLexemes h
  obtain ⟨o', z, i, j, hid, hsub, hshows, hz, hgz, hocc⟩ :=
    (hadds.shows o List.mem_cons_self).exists_below (z := .program p) hp hg top
      (mem_nodes_of_adds_empty hadds hn)
  obtain rfl : o'.id = id := hid.trans (ast.id_eq id n hn)
  have hnodup : o'.ids.Nodup := by
    have hids := (outline_of_adds_empty hadds).1.nodup_iff.mpr (Arena.keys_nodup _)
    exact hids.sublist (hsub.map _)
  rw [hshows.outline_eq hnodup]
  exact hshows.exists_copy (valid_of_spells hspells) hz hgz hocc hn he

/-- A difference below a `return` below an `if`. -/
theorem parse_slice_difference : ∃ ast root n,
    parse .unit 0 "class A { int f(int x) { if (x) return 2 - -x.y; } }" = .ok (ast, root) ∧
      ast.get? (.at 9 1) = some n ∧ n.kind.alone? = some .expression ∧
      ∃ before part after, "class A { int f(int x) { if (x) return 2 - -x.y; } }" =
          before ++ part ++ after ∧ before.utf8ByteSize = n.loc.start ∧
        (before ++ part).utf8ByteSize = n.loc.stop ∧
        ∃ ast' root', parse .expression 0 part = .ok (ast', root') ∧
          (ast.outline (.at 9 1)).Matches (Node.Copies n.loc.start) (ast'.outline root') := by
  have hok : (match parse .unit 0 "class A { int f(int x) { if (x) return 2 - -x.y; } }" with
    | .ok (ast, _) => (ast.get? (.at 9 1)).bind (·.kind.alone?)
    | .error _ => none) = some .expression := by decide +kernel
  split at hok
  · next ast root h =>
    obtain ⟨n, hn, he⟩ := Option.bind_eq_some_iff.mp hok
    exact ⟨ast, root, n, h, hn, he, parse_slice h hn he⟩
  · cases hok

end Ast

end FlatScope
