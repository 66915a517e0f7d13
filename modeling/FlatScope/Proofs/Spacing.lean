import FlatScope.Ast.Build
import FlatScope.Proofs.Composition
import FlatScope.Proofs.Segments

/-!
# Blanks between tokens

Where a token starts or stops a text has a seam. Blanks put into it take what is behind further back
and change no token (`scan_seam`).

Where nodes stand a parser cannot see: on the same tokens in other places it does the same
(`Parser.blind`). So the tree of a text does not depend on its layout (`Ast.parse_spaced`).
-/

namespace FlatScope

open Grammar Parser

namespace Lexer

open Segment

variable {rest w : List Char} {start k p : Nat} {segs front back : List Segment} {l : Lexeme}

/-! ## Seams -/

/-- Between these pieces of a text a token ends or begins. -/
def Seam (front back : List Segment) : Prop :=
  (∃ s, front.getLast? = some s ∧ s.token.isSome) ∨ ∃ s, back.head? = some s ∧ s.token.isSome

theorem Cuts.ne_lineFeed {c : Char} {v : List Char} {token : Token}
    (h : Cuts rest (⟨some token, c :: v⟩ :: segs)) : c ≠ '\n' := by
  rintro rfl
  obtain ⟨hchunk, -⟩ := cuts_cons.mp h
  cases hchunk

/-- Blanks at a seam change no token. -/
theorem scan_seam (h : Cuts [] (front ++ back)) (hvalid : Valid (front ++ back))
    (hseam : Seam front back) (hw : ∀ c ∈ w, isBlank c) (start : Nat) :
    scan start (text front ++ (w ++ text back)) =
      lexemes start front ++ lexemes (start + byteLength (text front) + byteLength w) back := by
  obtain ⟨hfront, hback⟩ := cuts_append.mp h
  rw [List.append_nil] at hfront
  have hsound : Valid front := fun s hs => hvalid s (List.mem_append_left back hs)
  rcases hseam with ⟨s, hlast, hs⟩ | ⟨s, hhead, hs⟩
  · cases w with
    | nil =>
      have hall := scan_append hfront start
      rwa [scan_of_cuts hback] at hall
    | cons b w =>
      have hstops : Stops (b :: w ++ text back) := stops_cons (hw b List.mem_cons_self) _
      have hmoved : Cuts (b :: w ++ text back) front := hfront.exchange hsound
        (fun s' hs' => Option.some.inj (hlast.symm.trans hs') ▸ hs) hstops
      rw [scan_append hmoved, scan_blanks hw, scan_of_cuts hback]
  · obtain ⟨back, rfl⟩ := List.head?_eq_some_iff.mp hhead
    rw [← scan_of_cuts hback]
    cases hback with
    | @cons z x t back hchunk hrest =>
      obtain ⟨token, rfl⟩ := Option.isSome_iff_exists.mp hs
      exact scan_insert hfront hsound (Cuts.cons hchunk hrest).ne_lineFeed hw start

/-- A token that starts or stops at a byte has a seam there. -/
theorem exists_seam (h : l ∈ lexemes start segs) (hp : l.start = start + p ∨ l.stop = start + p) :
    ∃ front back, segs = front ++ back ∧ byteLength (text front) = p ∧ Seam front back := by
  obtain ⟨front, s, back, rfl, htoken, hstart, hstop⟩ := exists_of_mem_lexemes h
  rcases hp with hp | hp
  · exact ⟨front, s :: back, rfl, by omega, .inr ⟨s, rfl, htoken⟩⟩
  · have hlast : (front ++ [s]).getLast? = some s := List.getLast?_concat
    exact ⟨front ++ [s], back, List.append_cons front s back, by omega, .inl ⟨s, hlast, htoken⟩⟩

end Lexer

/-- A stretch after `k` bytes have come in at byte `p`. -/
def Loc.spread (p k : Nat) (l : Loc) : Loc where
  source := l.source
  start := if p ≤ l.start then l.start + k else l.start
  stop := if p < l.stop then l.stop + k else l.stop

namespace Lexer

open Segment

variable {w : List Char} {p : Nat} {front back : List Segment}

/-- Blanks at a seam spread the stretches of the tokens. -/
theorem lex_seam (source : Nat) (h : Cuts [] (front ++ back)) (hvalid : Valid (front ++ back))
    (hseam : Seam front back) (hw : ∀ c ∈ w, isBlank c) :
    (lex (text front ++ (w ++ text back))).map (fun l => (l.token, Loc.mk source l.start l.stop)) =
      (lex (text (front ++ back))).map fun l => (l.token,
        (Loc.mk source l.start l.stop).spread (byteLength (text front)) (byteLength w)) := by
  obtain ⟨hfront, hback⟩ := List.forall_mem_append.mp h.chars_ne_nil
  have hnew : lex (text front ++ (w ++ text back)) =
      lexemes 0 front ++ lexemes (0 + byteLength (text front) + byteLength w) back :=
    scan_seam h hvalid hseam hw 0
  have hold : lex (text (front ++ back)) =
      lexemes 0 front ++ lexemes (0 + byteLength (text front)) back :=
    (scan_of_cuts h 0).trans (lexemes_append 0 front back)
  rw [hnew, hold, lexemes_add, List.map_append, List.map_append, List.map_map]
  congr 1 <;> refine List.map_congr_left fun l hl => ?_
  · obtain ⟨-, hlt, hle⟩ := bounds_of_mem_lexemes hfront hl
    unfold Loc.spread
    rw [if_neg (by dsimp only; omega), if_neg (by dsimp only; omega)]
  · obtain ⟨hle, hlt, -⟩ := bounds_of_mem_lexemes hback hl
    unfold Loc.spread
    rw [if_pos (by dsimp only; omega), if_pos (by dsimp only; omega)]
    rfl

end Lexer

/-! ## What a parser does not see -/

/-- What is in a cell, but for where the node stands. -/
def Cell.unplaced (c : Cell Node) : Cell NodeKind := ⟨c.version, c.value.map (·.kind)⟩

/-- Both trees have the same nodes, and none was removed; where the nodes stand is left open. -/
structure Ast.Twins (ast ast' : Ast) : Prop where
  cells : ast.nodes.cells.map Cell.unplaced = ast'.nodes.cells.map Cell.unplaced
  free : ast.nodes.free = []
  free' : ast'.nodes.free = []

namespace Ast.Twins

variable {ast ast' : Ast}

theorem empty (source source' : Nat) : (Ast.empty source).Twins (.empty source') := ⟨rfl, rfl, rfl⟩

theorem kind_eq (h : ast.Twins ast') (id : NodeId) :
    (ast.get? id).map (·.kind) = (ast'.get? id).map (·.kind) := by
  have hread : ∀ (a : Ast) (i version : Nat), (a.get? (.at (i + 1) version)).map (·.kind) =
      ((a.nodes.cells.map Cell.unplaced)[i]?.filter (·.version = version)).bind (·.value) := by
    intro a i version
    unfold Ast.get?
    rw [Array.getElem?_map]
    cases hc : a.nodes.cells[i]? with
    | none => rw [Arena.get?_at_of_none hc]; rfl
    | some cell =>
      rw [Arena.get?_at_of_cell hc, Option.map_some, Option.filter_some]
      by_cases hv : cell.version = version <;> simp [hv, Cell.unplaced]
  match id with
  | .null => rfl
  | .at 0 _ => rfl
  | .at (i + 1) version => rw [hread, hread, h.cells]

/-- A node made in both gets the same id. -/
theorem add (h : ast.Twins ast') (kind : NodeKind) (loc loc' : Loc) :
    (ast.add kind loc).1 = (ast'.add kind loc').1 ∧
      (ast.add kind loc).2.Twins (ast'.add kind loc').2 := by
  have hsize : ast.nodes.cells.size = ast'.nodes.cells.size := by
    have := congrArg Array.size h.cells
    rwa [Array.size_map, Array.size_map] at this
  have hadd : ∀ (a : Ast) (loc : Loc), a.nodes.free = [] → (a.add kind loc).2.nodes.free = [] ∧
      (a.add kind loc).1 = .at (a.nodes.cells.size + 1) 1 ∧
      (a.add kind loc).2.nodes.cells.map Cell.unplaced =
        (a.nodes.cells.map Cell.unplaced).push ⟨1, some kind⟩ := by
    intro a loc hfree
    rcases a.nodes.insert_cases (fun id => ⟨id, kind, loc⟩) with
      ⟨-, hfree', hkey, hcells⟩ | ⟨i, version, hmem, -⟩
    · exact ⟨hfree', hkey, (congrArg _ hcells).trans (Array.map_push ..)⟩
    · rw [hfree] at hmem
      cases hmem
  obtain ⟨hfree, hkey, hcells⟩ := hadd ast loc h.free
  obtain ⟨hfree', hkey', hcells'⟩ := hadd ast' loc' h.free'
  exact ⟨by rw [hkey, hkey', hsize], by rw [hcells, hcells', h.cells], hfree, hfree'⟩

end Ast.Twins

namespace Grammar

/-- Two attempts end in the same way. -/
structure Outcome.Twins {α : Type} (o o' : Outcome Builder α) : Prop where
  result : o.result = o'.result
  note : o.note = o'.note
  state : o.state.ast.Twins o'.state.ast

namespace Parser

/-- On the same tokens a parser does the same, wherever nodes stand. -/
theorem blind {α : Type} {p : Parser Builder α} (hp : p.Composed) {b c : Builder}
    (h : b.ast.Twins c.ast) (i : Input) : (p i b).Twins (p i c) := by
  induction hp generalizing i b c with
  | pure | fail | position => exact ⟨rfl, rfl, h⟩
  | @andThen _ _ p f _ _ ihp ihf =>
    show (Parser.bind p f i b).Twins (Parser.bind p f i c)
    obtain ⟨hresult, hnote, hstate⟩ := ihp h i
    unfold Parser.bind
    dsimp only
    rw [hresult, hnote]
    split
    · exact ⟨rfl, rfl, hstate⟩
    · next a j _ =>
      obtain ⟨hresult', hnote', hstate'⟩ := ihf a hstate j
      exact ⟨hresult', by rw [hnote'], hstate'⟩
  | add kind first next =>
    obtain ⟨hid, hstate⟩ := h.add kind ⟨b.ast.source, b.startOf first, b.stopBefore (next i.pos)⟩
      ⟨c.ast.source, c.startOf first, c.stopBefore (next i.pos)⟩
    exact ⟨congrArg (fun id => some (id, i)) hid, rfl, hstate⟩
  | satisfy item f =>
    unfold Parser.satisfy
    dsimp only
    split
    · exact ⟨rfl, rfl, h⟩
    · split <;> exact ⟨rfl, rfl, h⟩
  | endOfInput =>
    unfold Parser.endOfInput
    split <;> exact ⟨rfl, rfl, h⟩
  | decoded decode =>
    unfold Parser.decoded
    dsimp only
    split
    · split <;> exact ⟨rfl, rfl, h⟩
    · exact ⟨rfl, rfl, h⟩
  | phrase _ _ ih =>
    obtain ⟨hresult, hnote, hstate⟩ := ih h i
    refine ⟨hresult, ?_, hstate⟩
    unfold Parser.named
    dsimp only
    rw [hnote]
  | either _ _ ihp ihq =>
    obtain ⟨hresult, hnote, hstate⟩ := ihp h i
    unfold Parser.orElse
    dsimp only
    rw [hresult, hnote]
    split
    · exact ⟨hresult, hnote, hstate⟩
    · obtain ⟨hresult', hnote', hstate'⟩ := ihq hstate i
      exact ⟨hresult', by rw [hnote'], hstate'⟩
  | fueled _ ih => exact ih i h i

end Parser

end Grammar

namespace Ast

/-- Both texts were refused for the same reason, or both gave a tree, with the same nodes. -/
inductive Agree : Except SyntaxError (Ast × NodeId) → Except SyntaxError (Ast × NodeId) → Prop where
  | refused {e e' : SyntaxError} : e.cause = e'.cause → Agree (.error e) (.error e')
  | accepted {ast ast' : Ast} {root : NodeId} :
      (∀ id, (ast.get? id).map (·.kind) = (ast'.get? id).map (·.kind)) →
      Agree (.ok (ast, root)) (.ok (ast', root))

/-- The reason for a refusal does not depend on where the tokens are. -/
theorem cause_ofFailure (source source' length length' : Nat) (lexemes lexemes' : List Lexeme)
    (failure : Failure) : (SyntaxError.ofFailure source length lexemes failure).cause =
      (SyntaxError.ofFailure source' length' lexemes' failure).cause := by
  unfold SyntaxError.ofFailure
  split <;> split <;> rfl

theorem agree_ofLexemes (e : Entry) (source source' length length' : Nat)
    {lexemes lexemes' : List Lexeme} (h : lexemes.map (·.token) = lexemes'.map (·.token)) :
    Agree (ofLexemes e source length lexemes) (ofLexemes e source' length' lexemes') := by
  have := composed_entry e
  have hall : (do let a ← entry e; endOfInput; return a : TreeParser NodeId).Composed :=
    inferInstance
  let start : Builder := ⟨lexemes.toArray, length, .empty source⟩
  let start' : Builder := ⟨lexemes'.toArray, length', .empty source'⟩
  obtain ⟨hresult, hnote, hstate⟩ := blind hall (b := start) (c := start')
    (Twins.empty source source') ⟨0, lexemes.map (·.token)⟩
  unfold ofLexemes Parser.run
  dsimp only
  rw [← h, hresult, hnote]
  cases (do let a ← entry e; endOfInput; return a : TreeParser NodeId)
    ⟨0, lexemes.map (·.token)⟩ start' |>.result with
  | some read => exact .accepted hstate.kind_eq
  | none => exact .refused (cause_ofFailure ..)

/--
Blanks that come in where a token starts or stops leave the tokens as they are, but for their
places, and the nodes as well.
-/
theorem parse_spaced (source : Nat) (text : String) (p : Nat)
    (hvalid : ∀ t ∈ Lexer.locate source text, t.1 ≠ .invalid)
    (hp : ∃ t ∈ Lexer.locate source text, t.2.start = p ∨ t.2.stop = p) :
    ∃ front back, text = front ++ back ∧ front.utf8ByteSize = p ∧
      ∀ w : String, (∀ c ∈ w.toList, Lexer.isBlank c) →
        Lexer.locate source (front ++ w ++ back) =
          (Lexer.locate source text).map (fun t => (t.1, t.2.spread p w.utf8ByteSize)) ∧
        ∀ e, Agree (parse e source text) (parse e source (front ++ w ++ back)) := by
  obtain ⟨segs, hcuts, htext⟩ := Lexer.exists_cuts text.toList
  have hlex : Lexer.lex text.toList = Lexer.Segment.lexemes 0 segs :=
    htext ▸ Lexer.scan_of_cuts hcuts 0
  have hsound : Lexer.Valid segs := by
    refine Lexer.valid_of_lexemes fun l (hl : l ∈ Lexer.Segment.lexemes 0 segs) => ?_
    exact hvalid _ (List.mem_map_of_mem (hlex ▸ hl))
  obtain ⟨t, ht, hstands⟩ := hp
  obtain ⟨l, hl, rfl⟩ := List.mem_map.mp ht
  obtain ⟨front, back, rfl, rfl, hseam⟩ := Lexer.exists_seam (p := p) (hlex ▸ hl)
    (by rwa [Nat.zero_add])
  refine ⟨.ofList (Lexer.Segment.text front), .ofList (Lexer.Segment.text back), ?_,
    Lexer.utf8ByteSize_ofList _, fun w hw => ?_⟩
  · rw [← String.ofList_append, ← Lexer.text_append, htext, String.ofList_toList]
  · have hnew : (.ofList (Lexer.Segment.text front) ++ w ++ .ofList (Lexer.Segment.text back) :
        String).toList = Lexer.Segment.text front ++ (w.toList ++ Lexer.Segment.text back) := by
      simp only [String.toList_append, String.toList_ofList, List.append_assoc]
    have hlength : w.utf8ByteSize = Lexer.byteLength w.toList := by
      rw [← Lexer.utf8ByteSize_ofList, String.ofList_toList]
    have hmoved := Lexer.lex_seam source hcuts hsound hseam hw
    rw [← hnew, htext, ← hlength] at hmoved
    constructor
    · unfold Lexer.locate
      rw [List.map_map]
      exact hmoved
    · intro e
      have htokens := congrArg (List.map Prod.fst) hmoved
      rw [List.map_map, List.map_map] at htokens
      exact agree_ofLexemes e _ _ _ _ htokens.symm

theorem parse_spaced_line_comment :
    (∀ t ∈ Lexer.locate 0 "class A{}//", t.1 ≠ .invalid) ∧
    (∃ t ∈ Lexer.locate 0 "class A{}//", t.2.start = 9 ∨ t.2.stop = 9) ∧
    ∃ front back, "class A{}//" = front ++ back ∧ front.utf8ByteSize = 9 ∧
      ∀ w : String, (∀ c ∈ w.toList, Lexer.isBlank c) →
        Lexer.locate 0 (front ++ w ++ back) =
          (Lexer.locate 0 "class A{}//").map (fun t => (t.1, t.2.spread 9 w.utf8ByteSize)) ∧
        ∀ e, Agree (parse e 0 "class A{}//") (parse e 0 (front ++ w ++ back)) :=
  have hvalid : ∀ t ∈ Lexer.locate 0 "class A{}//", t.1 ≠ .invalid := by decide +kernel
  have hp : ∃ t ∈ Lexer.locate 0 "class A{}//", t.2.start = 9 ∨ t.2.stop = 9 := by decide +kernel
  ⟨hvalid, hp, parse_spaced 0 "class A{}//" 9 hvalid hp⟩

end Ast

end FlatScope
