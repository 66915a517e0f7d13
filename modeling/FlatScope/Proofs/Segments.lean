import FlatScope.Proofs.Locality

/-!
# Cutting a text into pieces

A text is cut into pieces from the front (`Cuts`), and its tokens are those of its pieces
(`scan_append`). What is behind a token can be exchanged for blanks, or cut off, without a change to
the pieces before (`Cuts.exchange`), and blanks in front of a token take it further back and leave
everything else (`scan_blanks`).
-/

namespace FlatScope.Lexer

/-- A piece of text: its token, unless it is blank space or a comment, and its characters. -/
structure Segment where
  token : Option Token
  chars : List Char

namespace Segment

/-- The text of pieces. -/
def text (segs : List Segment) : List Char := segs.flatMap chars

/-- The token of a piece that begins at a byte. -/
def lexeme? (start : Nat) (s : Segment) : Option Lexeme :=
  s.token.map fun token => ⟨token, start, start + byteLength s.chars⟩

/-- The tokens of pieces of which the first begins at a byte. -/
def lexemes (start : Nat) : List Segment → List Lexeme
  | [] => []
  | s :: segs => (s.lexeme? start).toList ++ lexemes (start + byteLength s.chars) segs

end Segment

open Segment

/-- In front of `rest` these pieces are taken one after the other. -/
inductive Cuts (rest : List Char) : List Segment → Prop where
  | nil : Cuts rest []
  | cons {c : Char} {v : List Char} {token : Option Token} {segs : List Segment} :
      chunk c (v ++ (text segs ++ rest)) = ⟨token, v.length + 1⟩ → Cuts rest segs →
      Cuts rest (⟨token, c :: v⟩ :: segs)

/-- The tokens of a text that begins at a byte. -/
def scan (start : Nat) (cs : List Char) : List Lexeme := lexWithin cs.length start cs

variable {c : Char} {cs v rest rest' w : List Char} {start k : Nat} {token : Token}
  {segs segs' : List Segment} {s : Segment} {l : Lexeme}

theorem text_append (segs segs' : List Segment) : text (segs ++ segs') = text segs ++ text segs' :=
  List.flatMap_append

theorem text_cons (s : Segment) (segs : List Segment) : text (s :: segs) = s.chars ++ text segs :=
  List.flatMap_cons

theorem lexemes_append (start : Nat) (segs segs' : List Segment) :
    lexemes start (segs ++ segs') =
      lexemes start segs ++ lexemes (start + byteLength (text segs)) segs' := by
  induction segs generalizing start with
  | nil => rfl
  | cons s segs ih =>
    rw [List.cons_append, lexemes, lexemes, ih, text_cons, byteLength_append, List.append_assoc,
      Nat.add_assoc]

/-- Further back in a text the tokens are the same. -/
theorem lexemes_add (start k : Nat) (segs : List Segment) : lexemes (start + k) segs =
    (lexemes start segs).map fun l => { l with start := l.start + k, stop := l.stop + k } := by
  induction segs generalizing start with
  | nil => rfl
  | cons s segs ih =>
    rw [lexemes, lexemes, List.map_append, ← ih, Nat.add_right_comm]
    congr 1
    unfold lexeme?
    cases s.token with
    | none => rfl
    | some token => simp [Nat.add_right_comm]

/-- Every text has a first piece. -/
theorem exists_chunk (c : Char) (cs : List Char) :
    ∃ v rest t, cs = v ++ rest ∧ chunk c cs = ⟨t, v.length + 1⟩ := by
  obtain ⟨word, rest, hsplit, hlength, hne, -⟩ := takes_chunk c cs
  obtain ⟨d, v, rfl⟩ := List.exists_cons_of_ne_nil hne
  obtain ⟨rfl, hcs⟩ := List.cons.inj hsplit
  exact ⟨v, rest, (chunk c cs).token, hcs, Chunk.mk.injEq .. ▸ ⟨rfl, hlength⟩⟩

/-- The first piece of a text, and what is behind it. -/
theorem lexWithin_piece {t : Option Token} (h : chunk c (v ++ rest) = ⟨t, v.length + 1⟩)
    (fuel start : Nat) : lexWithin (fuel + 1) start (c :: (v ++ rest)) =
      (lexeme? start ⟨t, c :: v⟩).toList ++
        lexWithin fuel (start + byteLength (c :: v)) rest := by
  have htake : ((c :: v) ++ rest).take (c :: v).length = c :: v := List.take_left
  have hdrop : ((c :: v) ++ rest).drop (c :: v).length = rest := List.drop_left
  rw [List.cons_append, List.length_cons] at htake hdrop
  rw [lexWithin, h]
  simp only [htake, hdrop]
  cases t <;> rfl

/-- More fuel than characters is of no use. -/
theorem lexWithin_eq_scan {fuel : Nat} (h : cs.length ≤ fuel) (start : Nat) :
    lexWithin fuel start cs = scan start cs := by
  have hall : ∀ fuel fuel' (cs : List Char) (start : Nat), cs.length ≤ fuel → cs.length ≤ fuel' →
      lexWithin fuel start cs = lexWithin fuel' start cs := by
    intro fuel
    induction fuel with
    | zero =>
      intro fuel' cs start h _
      obtain rfl := List.length_eq_zero_iff.mp (Nat.le_zero.mp h)
      cases fuel' <;> rfl
    | succ fuel ih =>
      intro fuel' cs start h h'
      cases cs with
      | nil => cases fuel' <;> rfl
      | cons c cs =>
        obtain ⟨v, rest, t, rfl, hchunk⟩ := exists_chunk c cs
        cases fuel' with
        | zero => cases h'
        | succ fuel' =>
          rw [List.length_cons, List.length_append] at h h'
          rw [lexWithin_piece hchunk, lexWithin_piece hchunk,
            ih fuel' rest _ (by omega) (by omega)]
  exact hall _ _ cs start h (Nat.le_refl _)

theorem scan_piece {t : Option Token} (h : chunk c (v ++ rest) = ⟨t, v.length + 1⟩) (start : Nat) :
    scan start (c :: (v ++ rest)) =
      (lexeme? start ⟨t, c :: v⟩).toList ++ scan (start + byteLength (c :: v)) rest := by
  have hfuel : rest.length ≤ (v ++ rest).length := List.length_append ▸ Nat.le_add_left _ _
  rw [← lexWithin_eq_scan hfuel]
  exact lexWithin_piece h _ start

theorem scan_append (h : Cuts rest segs) (start : Nat) : scan start (text segs ++ rest) =
    lexemes start segs ++ scan (start + byteLength (text segs)) rest := by
  induction h generalizing start with
  | nil => rfl
  | @cons c v token segs hchunk _ ih =>
    have htext : text (⟨token, c :: v⟩ :: segs) ++ rest = c :: (v ++ (text segs ++ rest)) := by
      rw [text_cons, List.append_assoc]
      rfl
    rw [htext, scan_piece hchunk, ih, lexemes, text_cons, byteLength_append, List.append_assoc,
      Nat.add_assoc]

/-- Every text can be cut. -/
theorem exists_cuts (cs : List Char) : ∃ segs, Cuts [] segs ∧ text segs = cs := by
  obtain ⟨n, hn⟩ : ∃ n, cs.length ≤ n := ⟨_, Nat.le_refl _⟩
  induction n generalizing cs with
  | zero =>
    obtain rfl := List.length_eq_zero_iff.mp (Nat.le_zero.mp hn)
    exact ⟨[], .nil, rfl⟩
  | succ n ih =>
    cases cs with
    | nil => exact ⟨[], .nil, rfl⟩
    | cons c cs =>
      obtain ⟨v, rest, t, rfl, hchunk⟩ := exists_chunk c cs
      rw [List.length_cons, List.length_append] at hn
      obtain ⟨segs, hcuts, rfl⟩ := ih rest (by omega)
      refine ⟨⟨t, c :: v⟩ :: segs, .cons ?_ hcuts, rfl⟩
      rwa [List.append_nil]

theorem scan_of_cuts (h : Cuts [] segs) (start : Nat) : scan start (text segs) =
    lexemes start segs := by
  have hscan := scan_append h start
  have hnil : ∀ start, scan start [] = [] := fun _ => rfl
  rwa [List.append_nil, hnil, List.append_nil] at hscan

theorem cuts_cons {t : Option Token} : Cuts rest (⟨t, c :: v⟩ :: segs) ↔
    chunk c (v ++ (text segs ++ rest)) = ⟨t, v.length + 1⟩ ∧ Cuts rest segs := by
  constructor
  · intro h
    cases h with
    | cons hchunk h => exact ⟨hchunk, h⟩
  · exact fun h => .cons h.1 h.2

theorem cuts_append :
    Cuts rest (segs ++ segs') ↔ Cuts (text segs' ++ rest) segs ∧ Cuts rest segs' := by
  induction segs with
  | nil => exact ⟨fun h => ⟨.nil, h⟩, fun h => h.2⟩
  | cons s segs ih =>
    rw [List.cons_append]
    match s with
    | ⟨t, []⟩ =>
      constructor
      · intro h
        cases h
      · rintro ⟨h, -⟩
        cases h
    | ⟨t, c :: v⟩ =>
      rw [cuts_cons, cuts_cons, ih, text_append, List.append_assoc, and_assoc]

/-! ## Exchanging what is behind a token -/

/-- All the tokens were read. -/
def Valid (segs : List Segment) : Prop := ∀ s ∈ segs, s.token ≠ some .invalid

/-- The text that decides on a token may be cut short behind it, or go on with a blank. -/
theorem chunk_exchange (h : chunk c (v ++ (text segs ++ rest)) = ⟨some token, v.length + 1⟩)
    (hvalid : token ≠ .invalid) (hstops : Stops rest') :
    chunk c (v ++ (text segs ++ rest')) = ⟨some token, v.length + 1⟩ := by
  rw [← List.append_assoc] at h ⊢
  rw [← h]
  refine chunk_of_stops (congrArg Chunk.token h) hvalid ?_ hstops
  rw [h, List.length_append]
  exact Nat.succ_le_succ (Nat.le_add_right _ _)

/-- Behind a token blanks or the end of the text make no difference. -/
theorem Cuts.exchange (h : Cuts rest segs) (hvalid : Valid segs)
    (hlast : ∀ s, segs.getLast? = some s → s.token.isSome) (hstops : Stops rest') :
    Cuts rest' segs := by
  induction h with
  | nil => exact .nil
  | @cons c v t segs hchunk hrest ih =>
    obtain ⟨hhead, htail⟩ := List.forall_mem_cons.mp hvalid
    have hlater : Cuts rest' segs := by
      cases segs with
      | nil => exact .nil
      | cons s segs => exact ih htail fun s' hs' => hlast s' (by rwa [List.getLast?_cons_cons])
    refine .cons ?_ hlater
    cases t with
    | some token => exact chunk_exchange hchunk (fun heq => hhead (heq ▸ rfl)) hstops
    | none =>
      -- a token comes behind it
      cases hrest with
      | nil => cases hlast _ rfl
      | @cons d u _ segs _ _ =>
        rw [text_cons] at hchunk ⊢
        exact chunk_of_gap hchunk _

/-! ## The tokens of pieces -/

/-- Where token number `i` comes from. -/
theorem exists_of_getElem?_lexemes {i : Nat} (h : (lexemes start segs)[i]? = some l) :
    ∃ front s back, segs = front ++ s :: back ∧ s.token.isSome ∧
      (lexemes start front).length = i ∧ l.start = start + byteLength (text front) ∧
      l.stop = start + byteLength (text (front ++ [s])) := by
  induction segs generalizing start i with
  | nil => cases h
  | cons s segs ih =>
    have later {i : Nat} (h : (lexemes (start + byteLength s.chars) segs)[i]? = some l) :
        ∃ front s' back, s :: segs = s :: front ++ s' :: back ∧ s'.token.isSome ∧
          (lexemes (start + byteLength s.chars) front).length = i ∧
          l.start = start + byteLength (text (s :: front)) ∧
          l.stop = start + byteLength (text (s :: front ++ [s'])) := by
      obtain ⟨front, s', back, rfl, htoken, hlength, hstart, hstop⟩ := ih h
      refine ⟨front, s', back, rfl, htoken, hlength, ?_, ?_⟩
      · rw [hstart, text_cons, byteLength_append, Nat.add_assoc]
      · rw [hstop, List.cons_append, text_cons, byteLength_append, Nat.add_assoc]
    rw [lexemes] at h
    have hlexeme : s.lexeme? start =
        s.token.map fun token => ⟨token, start, start + byteLength s.chars⟩ := rfl
    cases htoken : s.token with
    | none =>
      rw [htoken] at hlexeme
      rw [hlexeme] at h
      obtain ⟨front, s', back, hsegs, hs', hlength, hplace⟩ := later h
      refine ⟨s :: front, s', back, hsegs, hs', ?_, hplace⟩
      rwa [lexemes, hlexeme]
    | some token =>
      rw [htoken] at hlexeme
      rw [hlexeme] at h
      cases i with
      | zero =>
        obtain rfl := Option.some.inj h
        refine ⟨[], s, segs, rfl, htoken ▸ rfl, rfl, rfl, ?_⟩
        rw [List.nil_append, text_cons, byteLength_append]
        rfl
      | succ i =>
        obtain ⟨front, s', back, hsegs, hs', hlength, hplace⟩ := later h
        refine ⟨s :: front, s', back, hsegs, hs', ?_, hplace⟩
        rw [lexemes, hlexeme]
        exact congrArg Nat.succ hlength

/-- Where a token comes from. -/
theorem exists_of_mem_lexemes (h : l ∈ lexemes start segs) :
    ∃ front s back, segs = front ++ s :: back ∧ s.token.isSome ∧
      l.start = start + byteLength (text front) ∧
      l.stop = start + byteLength (text (front ++ [s])) := by
  obtain ⟨i, hi⟩ := List.getElem?_of_mem h
  obtain ⟨front, s, back, hsegs, hs, -, hplace⟩ := exists_of_getElem?_lexemes hi
  exact ⟨front, s, back, hsegs, hs, hplace⟩

theorem map_token_lexemes (start : Nat) (segs : List Segment) :
    (lexemes start segs).map (·.token) = segs.filterMap (·.token) := by
  induction segs generalizing start with
  | nil => rfl
  | cons s segs ih =>
    rw [lexemes, List.map_append, ih, List.filterMap_cons]
    unfold lexeme?
    cases s.token <;> rfl

theorem valid_of_lexemes (h : ∀ l ∈ lexemes start segs, l.token ≠ .invalid) : Valid segs := by
  intro s hs heq
  have hmem : Token.invalid ∈ (lexemes start segs).map (·.token) := by
    rw [map_token_lexemes]
    exact List.mem_filterMap.mpr ⟨s, hs, heq⟩
  obtain ⟨l, hl, hinvalid⟩ := List.mem_map.mp hmem
  exact h l hl hinvalid

theorem Cuts.chars_ne_nil (h : Cuts rest segs) : ∀ s ∈ segs, s.chars ≠ [] := by
  induction h with
  | nil => exact List.forall_mem_nil _
  | cons _ _ ih => exact List.forall_mem_cons.mpr ⟨List.cons_ne_nil _ _, ih⟩

/-- Tokens stand within the text of their pieces, and have characters. -/
theorem bounds_of_mem_lexemes (hne : ∀ s ∈ segs, s.chars ≠ []) (h : l ∈ lexemes start segs) :
    start ≤ l.start ∧ l.start < l.stop ∧ l.stop ≤ start + byteLength (text segs) := by
  obtain ⟨front, s, back, rfl, -, hstart, hstop⟩ := exists_of_mem_lexemes h
  have hs := byteLength_pos (hne s (List.mem_append_right front List.mem_cons_self))
  rw [text_append, text_cons] at hstop ⊢
  simp only [byteLength_append] at hstop ⊢
  have htext : byteLength (text []) = 0 := rfl
  omega

/-! ## Blanks in front of a token -/

/-- A run of blanks is passed over. -/
theorem scan_run (h : Run isBlank w rest) (start : Nat) :
    scan start (w ++ rest) = scan (start + byteLength w) rest := by
  cases w with
  | nil => rfl
  | cons c w =>
    have hchunk := (Separates.blanks (List.cons_ne_nil c w) h).chunk_eq
    exact scan_piece hchunk start

theorem scan_blanks (hw : ∀ c ∈ w, isBlank c) (rest : List Char) (start : Nat) :
    scan start (w ++ rest) = scan (start + byteLength w) rest := by
  obtain ⟨front, later, rfl, -, hrun⟩ := exists_run isBlank rest
  have hall : Run isBlank (w ++ front) later :=
    ⟨List.forall_mem_append.mpr ⟨hw, hrun.all⟩, hrun.stops⟩
  rw [← List.append_assoc, scan_run hall, scan_run hrun, byteLength_append, Nat.add_assoc]

/-- Between what separates tokens and the next token there is room for blanks. -/
theorem scan_separated {z : Char} {x u : List Char} (h : Separates (z :: x) u) (hz : z ≠ '\n')
    (w : List Char) (start : Nat) :
    scan start (u ++ (w ++ z :: x)) = scan (start + byteLength u) (w ++ z :: x) := by
  cases h with
  | blanks _ h => exact scan_blanks h.all _ start
  | line h => exact absurd (bne_eq_false_iff_eq.mp (h.stops z rfl)) hz
  | block h =>
    have hchunk := (Separates.block (commentLength?_of_eq h (w ++ z :: x))).chunk_eq
    exact scan_piece hchunk start

/-- Blanks in front of a token take it further back, and change nothing before it. -/
theorem scan_insert {z : Char} {x : List Char} (h : Cuts (z :: x) segs) (hvalid : Valid segs)
    (hz : z ≠ '\n') (hw : ∀ c ∈ w, isBlank c) (start : Nat) :
    scan start (text segs ++ (w ++ z :: x)) =
      lexemes start segs ++ scan (start + byteLength (text segs) + byteLength w) (z :: x) := by
  rw [← scan_blanks hw]
  cases w with
  | nil => exact scan_append h start
  | cons b w =>
    induction h generalizing start with
    | nil => rfl
    | @cons c v t segs hchunk hrest ih =>
      obtain ⟨hhead, htail⟩ := List.forall_mem_cons.mp hvalid
      have htext : text (⟨t, c :: v⟩ :: segs) ++ (b :: w ++ z :: x) =
          c :: (v ++ (text segs ++ (b :: w ++ z :: x))) := by
        rw [text_cons, List.append_assoc]
        rfl
      have hstep : chunk c (v ++ (text segs ++ (b :: w ++ z :: x))) = ⟨t, v.length + 1⟩ →
          scan start (text (⟨t, c :: v⟩ :: segs) ++ (b :: w ++ z :: x)) =
            lexemes start (⟨t, c :: v⟩ :: segs) ++
              scan (start + byteLength (text (⟨t, c :: v⟩ :: segs))) (b :: w ++ z :: x) := by
        intro hchunk'
        rw [htext, scan_piece hchunk', ih htail, lexemes, text_cons, byteLength_append,
          List.append_assoc, Nat.add_assoc]
      cases t with
      | some token =>
        exact hstep (chunk_exchange hchunk (fun heq => hhead (heq ▸ rfl))
          (stops_cons (hw b List.mem_cons_self) _))
      | none =>
        cases hrest with
        | @cons d u _ segs _ _ =>
          refine hstep ?_
          rw [text_cons] at hchunk ⊢
          exact chunk_of_gap hchunk _
        | nil =>
          have hsep := separates_of_chunk (x := z :: x) hchunk
          have hnone : lexemes start [⟨none, c :: v⟩] = [] := rfl
          rw [hnone, List.nil_append, text_cons]
          show scan start (c :: v ++ [] ++ _) = scan (start + byteLength (c :: v ++ [])) _
          rw [List.append_nil]
          exact scan_separated hsep hz (b :: w) start

end FlatScope.Lexer
