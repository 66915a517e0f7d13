import FlatScope.Proofs.Munch

/-!
# Tokens tile their source

Tokens, and between them blank characters and comments, make up the whole of a text
(`tiles_locate`): no byte is part of two tokens, and no other byte is left out.
-/

namespace FlatScope.Lexer

variable {c : Char} {word gap rest : List Char} {pattern : Pattern}

/-- Blank characters and comments, with `rest` behind them. -/
inductive Gap (rest : List Char) : List Char → Prop where
  | nil : Gap rest []
  | blank {c : Char} {gap : List Char} (hc : c ∈ [' ', '\t', '\r', '\n', '\x0c'])
      (hgap : Gap rest gap) : Gap rest (c :: gap)
  /-- from `//` up to the next line feed, or to the end; -/
  | line {body gap : List Char} (hbody : '\n' ∉ body)
      (hstop : ∀ c, (gap ++ rest).head? = some c → c = '\n') (hgap : Gap rest gap) :
      Gap rest ('/' :: '/' :: (body ++ gap))
  /-- from `/*` through the first `*/` behind it. -/
  | block {body gap : List Char} (hbody : ¬ ['*', '/'] <:+: body ++ ['*']) (hgap : Gap rest gap) :
      Gap rest ('/' :: '*' :: (body ++ '*' :: '/' :: gap))

/-- A text from byte `start` on as gaps and the texts of tokens, which are never empty. -/
inductive Tiles (source : Nat) : Nat → List Char → List (Token × Loc) → Prop where
  | gap {start : Nat} {gap : List Char} (hgap : Gap [] gap) : Tiles source start gap []
  | token {start first last : Nat} {gap word rest : List Char} {token : Token}
      {tokens : List (Token × Loc)} (hgap : Gap (word ++ rest) gap) (hword : word ≠ [])
      (hfirst : first = start + byteLength gap) (hlast : last = first + byteLength word)
      (hrest : Tiles source last rest tokens) :
      Tiles source start (gap ++ word ++ rest) ((token, ⟨source, first, last⟩) :: tokens)

/-! ## Gaps -/

theorem Gap.blanks (hword : ∀ c ∈ word, c ∈ [' ', '\t', '\r', '\n', '\x0c'])
    (hgap : Gap rest gap) : Gap rest (word ++ gap) := by
  induction word with
  | nil => exact hgap
  | cons c word ih =>
    obtain ⟨hc, hword⟩ := List.forall_mem_cons.mp hword
    exact .blank hc (ih hword)

/-- A line comment that is the longest match goes on to the end of its line. -/
theorem Longest.line_stops {body : List Char} (h : Longest .lineComment ('/' :: '/' :: body) rest)
    (hbody : ∀ c ∈ body, c ≠ '\n') : ∀ c, rest.head? = some c → c = '\n' := by
  intro c hc
  by_contra hne
  obtain ⟨later, rfl⟩ := List.head?_eq_some_iff.mp hc
  have hlonger : '/' :: '/' :: (body ++ [c]) ∈ Pattern.lineComment.language := by
    refine mem_lineComment_iff.mpr ⟨_, rfl, fun d hd => ?_⟩
    rcases List.mem_append.mp hd with hd | hd
    · exact hbody d hd
    · rwa [List.mem_singleton.mp hd]
  have := h.longest _ _ hlonger ⟨later, by simp⟩
  simp at this

/-- What is skipped lengthens the gap behind it. -/
theorem Gap.skip (h : Reads none word (gap ++ rest)) (hgap : Gap rest gap) :
    Gap rest (word ++ gap) := by
  obtain ⟨pattern, hskipped, hlongest⟩ := h
  cases pattern with
  | blanks =>
    have hall := (mem_oneOrMore_one.mp hlongest.accepts).2
    exact hgap.blanks fun c hc => of_decide_eq_true (hall c hc)
  | lineComment =>
    obtain ⟨body, rfl, hbody⟩ := mem_lineComment_iff.mp hlongest.accepts
    exact .line (fun hmem => hbody _ hmem rfl) (hlongest.line_stops hbody) hgap
  | blockComment =>
    obtain ⟨body, rfl, hbody⟩ := mem_blockComment_iff.mp hlongest.accepts
    have := Gap.block hbody hgap
    simpa using this
  | _ => exact hskipped.elim

/-! ## Tilings -/

variable {source start : Nat} {cs : List Char} {tokens : List (Token × Loc)}

theorem Tiles.skip (h : Reads none word cs)
    (htiles : Tiles source (start + byteLength word) cs tokens) :
    Tiles source start (word ++ cs) tokens := by
  cases htiles with
  | gap hgap => exact .gap (hgap.skip (by rwa [List.append_nil]))
  | token hgap hnext hfirst hlast hrest =>
    rw [List.append_assoc] at h
    rw [← List.append_assoc, ← List.append_assoc]
    refine .token (hgap.skip h) hnext ?_ hlast hrest
    rw [hfirst, byteLength_append, Nat.add_assoc]

theorem tiles_of_cut {lexemes : List Lexeme} (h : Cut start cs lexemes) :
    Tiles source start cs (lexemes.map fun l => (l.token, ⟨source, l.start, l.stop⟩)) := by
  induction h with
  | done start => exact .gap .nil
  | skip h _ ih => exact ih.skip h
  | @token start token word rest lexemes hne _ _ ih =>
    have hgap : Gap (word ++ rest) [] := .nil
    exact .token hgap hne rfl rfl ih

theorem Tiles.span (h : Tiles source start cs tokens) :
    ∀ x ∈ tokens, x.2.source = source ∧ start ≤ x.2.start ∧ x.2.start < x.2.stop := by
  induction h with
  | gap => exact fun _ hx => by cases hx
  | @token start first last _ _ _ _ _ _ hword hfirst hlast _ ih =>
    have hpos := byteLength_pos hword
    have hstart : start ≤ first := by omega
    have hlt : first < last := by omega
    refine List.forall_mem_cons.mpr ⟨⟨rfl, hstart, hlt⟩, fun x hx => ?_⟩
    obtain ⟨hsource, hlast, hx⟩ := ih x hx
    exact ⟨hsource, Nat.le_trans (Nat.le_trans hstart hlt.le) hlast, hx⟩

theorem Tiles.ordered (h : Tiles source start cs tokens) :
    tokens.Pairwise fun x y => x.2.stop ≤ y.2.start := by
  induction h with
  | gap => exact .nil
  | token _ _ _ _ hrest ih => exact .cons (fun y hy => (hrest.span y hy).2.1) ih

theorem isValid_byteLength {text : String} {before after : List Char}
    (h : text.toList = before ++ after) : (⟨byteLength before⟩ : String.Pos.Raw).IsValid text := by
  refine String.Pos.Raw.isValid_iff_exists_append.mpr
    ⟨String.ofList before, String.ofList after, ?_, ?_⟩
  · rw [← String.ofList_append, ← h, String.ofList_toList]
  · exact String.Pos.Raw.ext (utf8ByteSize_ofList before).symm

/--
The places of the tokens are in the source asked for, not empty, between characters, in order and
apart; with blank characters and comments between them they make up the whole text.
-/
theorem tiles_locate (source : Nat) (text : String) :
    (∀ x ∈ locate source text, x.2.source = source ∧ x.2.start < x.2.stop ∧
      (⟨x.2.start⟩ : String.Pos.Raw).IsValid text ∧ (⟨x.2.stop⟩ : String.Pos.Raw).IsValid text) ∧
    (locate source text).Pairwise (fun x y => x.2.stop ≤ y.2.start) ∧
    Tiles source 0 text.toList (locate source text) := by
  have hcut := cut_lexWithin (Nat.le_refl text.toList.length) 0
  have htiles : Tiles source 0 text.toList (locate source text) := tiles_of_cut hcut
  refine ⟨fun x hx => ?_, htiles.ordered, htiles⟩
  obtain ⟨hsource, -, hlt⟩ := htiles.span x hx
  obtain ⟨l, hl, rfl⟩ := List.mem_map.mp hx
  obtain ⟨before, word, rest, hsplit, hstart, hstop, -⟩ := hcut.exists_of_mem hl
  rw [Nat.zero_add] at hstart hstop
  refine ⟨hsource, hlt, ?_, ?_⟩
  · rw [List.append_assoc] at hsplit
    exact hstart ▸ isValid_byteLength hsplit
  · exact hstop ▸ isValid_byteLength hsplit

/-- A comment that looks closed by its own opening, one with stars, and one at the very end. -/
example : locate 3 "a/*/ b */c/***///" =
    [(.identifier "a", ⟨3, 0, 1⟩), (.identifier "c", ⟨3, 9, 10⟩)] := by
  decide +kernel

end FlatScope.Lexer
