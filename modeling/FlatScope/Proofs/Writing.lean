import FlatScope.Proofs.Segments

/-!
# Writing tokens down

`Token.Writes token word` says that the token may be written as `word`, and `Separator gap` that
`gap` may stand between two tokens: a blank, or a comment between blanks. Where tokens are written
with separators between them they are read again, each at its place (`locate_written`). For that a
token has to be read alone (`Writes.chunk_eq`), and a separator passed over whatever follows
(`Separator.scan_eq`).
-/

namespace FlatScope

open Lexer

open scoped Computability

/-- The ways to write a token. There is none for doubles and invalid text. -/
inductive Token.Writes : Token → List Char → Prop where
  | symbol (s : Symbol) : Writes (.symbol s) s.chars
  | keyword (k : Keyword) : Writes (.keyword k) k.text.toList
  /-- in decimal, with any number of zeros in front -/
  | int {value : Nat} (zeros : Nat) (hvalue : value ≤ 2 ^ 63 - 1) :
      Writes (.int value) (List.replicate zeros '0' ++ (toString value).toList)
  /-- between quotes, where a backslash goes before a character that is no line feed -/
  | string {body : List Char} (hbody : body ∈ stringItem∗) :
      Writes (.string (String.ofList ('"' :: (body ++ ['"'])))) ('"' :: (body ++ ['"']))
  | identifier {name : String} (hname : name.toList ∈ Pattern.identifier.language)
      (hkeyword : ∀ k : Keyword, name ≠ k.text) : Writes (.identifier name) name.toList

theorem Token.Writes.ne_invalid {token : Token} {word : List Char} (h : token.Writes word) :
    token ≠ .invalid := by
  cases h <;> exact Token.noConfusion

namespace Lexer

open Segment

/-- What may stand between tokens. -/
inductive Separator : List Char → Prop where
  | blank {b : Char} (hb : isBlank b) : Separator [b]
  | line {b : Char} {body : List Char} (hb : isBlank b) (hbody : '\n' ∉ body) :
      Separator (b :: '/' :: '/' :: (body ++ ['\n']))
  | block {b d : Char} {body : List Char} (hb : isBlank b) (hd : isBlank d)
      (hbody : ¬ ['*', '/'] <:+: body) : Separator (b :: '/' :: '*' :: (body ++ ['*', '/', d]))

/-- The piece is a token in one of its spellings, or a separator. -/
inductive Segment.Written : Segment → Prop where
  | token {token : Token} {word : List Char} : token.Writes word → Written ⟨some token, word⟩
  | gap {gap : List Char} : Separator gap → Written ⟨none, gap⟩

variable {token : Token} {word gap rest : List Char} {segs : List Segment} {start : Nat}

/-! ## Tokens that stand alone -/

theorem runLength_of_all {p : Char → Bool} (h : ∀ c ∈ word, p c) :
    runLength p word = word.length := by
  have hrun := runLength_append_of_all h []
  rwa [List.append_nil] at hrun

theorem number_of_digits (h : ∀ c ∈ word, c.isDigit) (hvalue : Binary64.digitsValue word ≤ maxInt) :
    number word = ⟨some (.int (Binary64.digitsValue word)), word.length⟩ := by
  have hnone : fractionLength [] = 0 := rfl
  unfold number
  simp only [runLength_of_all h, List.take_length, List.drop_length, hnone, if_true,
    if_pos hvalue]

/-- Zeros in front do not count. -/
theorem digitsValue_zeros (zeros n : Nat) :
    Binary64.digitsValue (List.replicate zeros '0' ++ Nat.toDigits 10 n) = n := by
  have hvalue : ∀ cs, Binary64.digitsValue cs = Nat.ofDigitChars 10 cs 0 :=
    fun _ => Nat.ofDigitChars_eq_foldl.symm
  rw [hvalue, Nat.ofDigitChars_append, Nat.ofDigitChars_replicate_zero, Nat.mul_zero,
    Nat.ofDigitChars_ten_toDigits]

theorem word_of_identifier {name : String} (h : ∀ c ∈ name.toList, isWordPart c)
    (hkeyword : Keyword.ofText? name = none) :
    Lexer.word name.toList = ⟨some (.identifier name), name.toList.length⟩ := by
  unfold Lexer.word
  simp only [runLength_of_all h, List.take_length, String.ofList_toList, hkeyword]

theorem ofText?_eq_none_of_ne {name : String} (h : ∀ k : Keyword, name ≠ k.text) :
    Keyword.ofText? name = none :=
  List.find?_eq_none.mpr fun k _ heq => h k (beq_iff_eq.mp heq).symm

theorem chunk_digit {c : Char} (hc : c.isDigit) (cs : List Char) :
    chunk c cs = number (c :: cs) := by
  have hblank : isBlank c = false := isBlank_eq_false hc rfl
  unfold chunk
  rw [hblank, if_neg Bool.false_ne_true, if_pos hc]

theorem chunk_wordStart {c : Char} (hc : isWordStart c) (cs : List Char) :
    chunk c cs = Lexer.word (c :: cs) := by
  have hstart := startOf_of_isWordStart hc
  unfold startOf at hstart
  unfold chunk
  split at hstart
  · cases hstart
  next hblank =>
  split at hstart
  · cases hstart
  next hdigit =>
  rw [if_neg hblank, if_neg hdigit, if_pos hc]

theorem chunk_int {value : Nat} (zeros : Nat) (hvalue : value ≤ maxInt) :
    ∃ c v, List.replicate zeros '0' ++ (toString value).toList = c :: v ∧
      chunk c v = ⟨some (.int value), v.length + 1⟩ := by
  rw [Nat.toString_eq_ofList_toDigits, String.toList_ofList]
  have hall : ∀ c ∈ List.replicate zeros '0' ++ Nat.toDigits 10 value, c.isDigit := by
    intro c hc
    rcases List.mem_append.mp hc with hc | hc
    · rw [List.eq_of_mem_replicate hc]
      rfl
    · exact Nat.isDigit_of_mem_toDigits (by decide) (by decide) hc
  have hne : List.replicate zeros '0' ++ Nat.toDigits 10 value ≠ [] :=
    List.append_ne_nil_of_right_ne_nil _ Nat.toDigits_ne_nil
  have hzeros := digitsValue_zeros zeros value
  obtain ⟨c, v, hword⟩ := List.exists_cons_of_ne_nil hne
  rw [hword] at hall hzeros
  refine ⟨c, v, hword, ?_⟩
  rw [chunk_digit (hall c List.mem_cons_self), number_of_digits hall (hzeros ▸ hvalue), hzeros]
  rfl

/-- A token that is written down is read where nothing follows. -/
theorem exists_chunk_of_writes (h : token.Writes word) :
    ∃ c v, word = c :: v ∧ chunk c v = ⟨some token, v.length + 1⟩ := by
  cases h with
  | symbol s => cases s <;> exact ⟨_, _, rfl, rfl⟩
  | keyword k => cases k <;> exact ⟨_, _, rfl, rfl⟩
  | int zeros hvalue => exact chunk_int zeros hvalue
  | @string body hbody =>
    refine ⟨'"', body ++ ['"'], rfl, ?_⟩
    have htake : (body ++ ['"']).take (body.length + 1) = body ++ ['"'] :=
      List.take_of_length_le (List.length_append ▸ Nat.le_refl _)
    show stringLiteral (body ++ ['"']) = _
    unfold stringLiteral
    simp only [stringEnd_append hbody [], htake, List.length_append, List.length_singleton]
  | @identifier name hname hkeyword =>
    obtain ⟨c, v, hword, hc, -⟩ := mem_identifier_iff.mp hname
    refine ⟨c, v, hword, ?_⟩
    rw [chunk_wordStart hc, ← hword, word_of_identifier (isWordPart_of_mem_identifier hname)
      (ofText?_eq_none_of_ne hkeyword), hword]
    rfl

/-! ## Separators -/

theorem noEnd_concat {body : List Char} (h : ¬ ['*', '/'] <:+: body) : NoEnd (body ++ ['*']) :=
  NoEnd.append h (noEnd_of_forall_eq fun _ hc => List.mem_singleton.mp hc) (by decide)

/-- A separator is passed over, whatever is behind it. -/
theorem Separator.scan_eq (h : Separator gap) (rest : List Char) (start : Nat) :
    scan start (gap ++ rest) = scan (start + byteLength gap) rest := by
  have hblank : ∀ {b : Char}, isBlank b → ∀ (rest : List Char) (start : Nat),
      scan start (b :: rest) = scan (start + byteLength [b]) rest := by
    intro b hb rest start
    exact scan_blanks (w := [b]) (List.forall_mem_singleton.mpr hb) rest start
  -- a comment up to where it ends, and the blank that is left of the separator
  have hcomment : ∀ {c d : Char} {v : List Char}, Separates (d :: rest) (c :: v) → isBlank d →
      ∀ start, scan start (c :: (v ++ d :: rest)) =
        scan (start + byteLength (c :: v) + byteLength [d]) rest := by
    intro c d v hsep hd start
    rw [scan_piece hsep.chunk_eq start, hblank hd]
    rfl
  cases h with
  | blank hb => exact hblank hb rest start
  | @line b body hb hbody =>
    have hrun : Run (· != '\n') body ('\n' :: rest) := by
      refine ⟨fun c hc => bne_iff_ne.mpr fun heq => hbody (heq ▸ hc), fun c hc => ?_⟩
      cases hc
      rfl
    have hline := hcomment (.line hrun) rfl (start + byteLength [b])
    rw [List.cons_append, hblank hb]
    simp only [List.cons_append, List.append_assoc, List.nil_append] at hline ⊢
    rw [hline]
    congr 1
    simp only [byteLength, byteLength_append]
    omega
  | @block b d body hb hd hbody =>
    have hend : commentLength? (body ++ ['*', '/'] ++ d :: rest) =
        some (body ++ ['*', '/']).length := by
      rw [List.append_assoc, List.length_append]
      exact commentLength?_append (noEnd_concat hbody) (d :: rest)
    have hblock := hcomment (.block hend) hd (start + byteLength [b])
    rw [List.cons_append, hblank hb]
    simp only [List.cons_append, List.append_assoc, List.nil_append] at hblock ⊢
    rw [hblock]
    congr 1
    simp only [byteLength, byteLength_append]
    omega

theorem Separator.exists_blank (h : Separator gap) : ∃ b cs, gap = b :: cs ∧ isBlank b := by
  cases h with
  | blank hb | line hb | block hb => exact ⟨_, _, rfl, hb⟩

/-! ## Texts -/

/-- Where separators stand between all tokens a text is read as it was written. -/
theorem scan_written (hwritten : ∀ s ∈ segs, s.Written)
    (hapart : segs.IsChain fun s s' => s.token = none ∨ s'.token = none) (start : Nat) :
    scan start (text segs) = lexemes start segs := by
  induction segs generalizing start with
  | nil => rfl
  | cons s segs ih =>
    obtain ⟨hs, hlater⟩ := List.forall_mem_cons.mp hwritten
    have hrest := ih hlater hapart.tail
    rw [text_cons, lexemes]
    cases hs with
    | gap h => exact (h.scan_eq (text segs) start).trans (hrest _)
    | @token token word h =>
      have hstops : Stops (text segs) := by
        cases segs with
        | nil => exact stops_nil
        | cons s' segs =>
          -- behind a token there is a separator
          have hnone : s'.token = none :=
            (List.isChain_cons_cons.mp hapart).1.resolve_left (Option.some_ne_none token)
          cases hlater s' List.mem_cons_self with
          | token => cases hnone
          | gap h =>
            obtain ⟨b, cs, rfl, hb⟩ := h.exists_blank
            exact stops_cons hb _
      obtain ⟨c, v, rfl, hchunk⟩ := exists_chunk_of_writes h
      have hread : chunk c (v ++ text segs) = ⟨some token, v.length + 1⟩ := by
        have hchunk' : chunk c (v ++ (text [] ++ [])) = ⟨some token, v.length + 1⟩ := by
          rwa [show text [] = [] from rfl, List.append_nil, List.append_nil]
        show chunk c (v ++ (text [] ++ text segs)) = _
        exact chunk_exchange hchunk' h.ne_invalid hstops
      exact (scan_piece hread start).trans (congrArg _ (hrest _))

/--
Writing tokens down and reading the text gives the tokens again, each at the place where it was
written, if there are separators between all of them. In front of the first token and behind the
last there may be some.
-/
theorem locate_written (source : Nat) {segs : List Segment} (hwritten : ∀ s ∈ segs, s.Written)
    (hapart : segs.IsChain fun s s' => s.token = none ∨ s'.token = none) :
    locate source (String.ofList (text segs)) =
      (lexemes 0 segs).map fun l => (l.token, ⟨source, l.start, l.stop⟩) := by
  unfold locate
  rw [String.toList_ofList]
  exact congrArg _ (scan_written hwritten hapart 0)

/-- Zeros in front of a number, quotes in comments, a line feed and a comment in a string. -/
theorem locate_written_comments : ∃ segs,
    String.ofList (text segs) = "007 /*\"**/ \"/*\n\\\"\" // \"\n  classy" ∧
    (∀ s ∈ segs, s.Written) ∧ (segs.IsChain fun s s' => s.token = none ∨ s'.token = none) ∧
    locate 4 "007 /*\"**/ \"/*\n\\\"\" // \"\n  classy" =
      [(.int 7, ⟨4, 0, 3⟩), (.string "\"/*\n\\\"\"", ⟨4, 11, 18⟩),
        (.identifier "classy", ⟨4, 26, 32⟩)] := by
  have hbody : ['/', '*', '\n', '\\', '"'] ∈ stringItem∗ := by
    have hplain : ∀ c, c ≠ '\\' ∧ c ≠ '"' → [c] ∈ stringItem :=
      fun c hc => .inr ⟨c, by simpa using hc, rfl⟩
    have hescape : ['\\', '"'] ∈ stringItem :=
      .inl (mem_exactly_mul.mpr ⟨['"'], ⟨'"', rfl, rfl⟩, rfl⟩)
    exact append_mem_kstar (hplain '/' (by decide)) (append_mem_kstar (hplain '*' (by decide))
      (append_mem_kstar (hplain '\n' (by decide))
        (append_mem_kstar hescape (Language.nil_mem_kstar _))))
  have hname : "classy".toList ∈ Pattern.identifier.language :=
    mem_identifier_iff.mpr ⟨'c', "lassy".toList, rfl, rfl, List.all_eq_true.mp (by decide)⟩
  have hkeyword : ∀ k : Keyword, "classy" ≠ k.text := fun k => by cases k <;> decide
  let segs : List Segment := [⟨some (.int 7), "007".toList⟩, ⟨none, " /*\"**/ ".toList⟩,
    ⟨some (.string "\"/*\n\\\"\""), "\"/*\n\\\"\"".toList⟩, ⟨none, " // \"\n".toList⟩,
    ⟨none, [' ']⟩, ⟨none, [' ']⟩, ⟨some (.identifier "classy"), "classy".toList⟩]
  have hwritten : ∀ s ∈ segs, s.Written := by
    simp only [segs, List.forall_mem_cons]
    have hblock : Separator " /*\"**/ ".toList :=
      @Separator.block ' ' ' ' ['"', '*'] rfl rfl (by decide)
    have hline : Separator " // \"\n".toList := @Separator.line ' ' [' ', '"'] rfl (by decide)
    exact ⟨.token (.int 2 (by decide)), .gap hblock, .token (.string hbody), .gap hline,
      .gap (.blank rfl), .gap (.blank rfl), .token (.identifier hname hkeyword),
      List.forall_mem_nil _⟩
  have hapart : segs.IsChain fun s s' => s.token = none ∨ s'.token = none := by decide
  have htext : String.ofList (text segs) = "007 /*\"**/ \"/*\n\\\"\" // \"\n  classy" := by
    decide +kernel
  have hread := locate_written 4 hwritten hapart
  rw [htext] at hread
  exact ⟨segs, htext, hwritten, hapart, hread.trans (by decide +kernel)⟩

end Lexer

end FlatScope
