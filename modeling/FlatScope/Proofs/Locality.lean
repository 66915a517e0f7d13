import FlatScope.Proofs.Munch

/-!
# What a token depends on

A token is read off its own characters and, to see where it ends, off some behind it. A blank or the
end of the text is always enough for that: where a token was read it is also read with either of
them behind its characters, or behind any characters from there on (`chunk_of_stops`). A comment or
a run of blanks that something follows needs no more than its first character (`chunk_of_gap`).
-/

namespace FlatScope.Lexer

variable {p : Char → Bool} {c : Char} {cs v x y : List Char} {n : Nat} {token : Token}

/-- The text is at its end, or goes on with a blank. -/
def Stops (y : List Char) : Prop := ∀ c, y.head? = some c → isBlank c

theorem stops_nil : Stops [] := fun _ h => by cases h

theorem stops_cons (h : isBlank c) (cs : List Char) : Stops (c :: cs) := fun d hd => by
  cases hd
  exact h

/-! ## Runs -/

theorem runLength_append_of_all (h : ∀ c ∈ v, p c) (x : List Char) :
    runLength p (v ++ x) = v.length + runLength p x := by
  unfold runLength
  rw [List.takeWhile_append_of_pos h, List.length_append]

theorem runLength_append_of_not (h : ¬ ∀ c ∈ v, p c) (x : List Char) :
    runLength p (v ++ x) = runLength p v := by
  unfold runLength
  rw [List.takeWhile_append, if_neg]
  intro hlength
  have heq := (List.takeWhile_prefix p).eq_of_length hlength
  exact h (heq ▸ List.all_eq_true.mp (List.all_takeWhile (p := p) (l := v)))

/-- A run that ends within a text ends there whatever is behind, unless that goes on with it. -/
theorem runLength_of_stops (h : runLength p (v ++ x) ≤ v.length)
    (hy : ∀ c, y.head? = some c → p c = false) :
    runLength p (v ++ y) = runLength p (v ++ x) := by
  by_cases hall : ∀ c ∈ v, p c
  · have hnone : runLength p y = 0 := by
      cases y with
      | nil => rfl
      | cons c y =>
        unfold runLength
        rw [List.takeWhile_cons_of_neg (by rw [hy c rfl]; exact Bool.false_ne_true)]
        rfl
    rw [runLength_append_of_all hall] at h ⊢
    rw [runLength_append_of_all hall, hnone]
    omega
  · rw [runLength_append_of_not hall, runLength_append_of_not hall]

/-- No blank goes on with a run of characters of another class. -/
theorem Stops.not_mem (hy : Stops y) (hblank : ∀ c, isBlank c → p c = false) :
    ∀ c, y.head? = some c → p c = false := fun c hc => hblank c (hy c hc)

theorem isBlank_iff : isBlank c ↔ c = ' ' ∨ c = '\t' ∨ c = '\r' ∨ c = '\n' ∨ c = '\x0c' := by
  simp [isBlank, or_assoc]

theorem isDigit_of_isBlank : ∀ c, isBlank c → c.isDigit = false := by
  intro c hc
  rcases isBlank_iff.mp hc with rfl | rfl | rfl | rfl | rfl <;> rfl

theorem isWordPart_of_isBlank : ∀ c, isBlank c → isWordPart c = false := by
  intro c hc
  rcases isBlank_iff.mp hc with rfl | rfl | rfl | rfl | rfl <;> rfl

/-! ## Numbers -/

theorem exponentLength_of_ne (hc : ¬ (c = 'e' ∨ c = 'E')) (cs : List Char) :
    exponentLength (c :: cs) = 0 := if_neg hc

theorem Signed.append {sign u : List Char} (h : Signed sign u) (hne : sign ++ u ≠ [])
    (x : List Char) : Signed sign (u ++ x) := by
  refine ⟨h.spelled, ?_⟩
  rintro rfl c hc
  cases u with
  | nil => exact absurd rfl hne
  | cons d u => exact h.alone rfl c hc

/-- A blank is no sign, and no digit. -/
theorem exponentLength_cons_of_stops (he : c = 'e' ∨ c = 'E') (hy : Stops y) :
    exponentLength (c :: y) = 0 := by
  have hsigned : Signed [] y := by
    refine ⟨.inl rfl, fun _ d hd => ?_⟩
    constructor <;> (rintro rfl; cases hy _ hd)
  have hrun : runLength Char.isDigit y = 0 :=
    runLength_of_stops (v := []) (x := []) (Nat.le_refl 0) (hy.not_mem isDigit_of_isBlank)
  exact (exponentLength_cons he hsigned).trans (if_pos hrun)

theorem exponentLength_of_stops (h : exponentLength (v ++ x) ≤ v.length) (hy : Stops y) :
    exponentLength (v ++ y) = exponentLength (v ++ x) := by
  cases v with
  | nil =>
    have hx : exponentLength x = 0 := Nat.le_zero.mp h
    rw [List.nil_append, List.nil_append, hx]
    cases y with
    | nil => rfl
    | cons c y =>
      refine exponentLength_of_ne ?_ y
      rintro (rfl | rfl) <;> cases hy _ rfl
  | cons c v =>
    rw [List.cons_append] at h ⊢
    rw [List.cons_append]
    by_cases he : c = 'e' ∨ c = 'E'
    · by_cases hv : v = []
      · -- the sign or the digits would be behind the text
        subst hv
        rw [List.nil_append] at h ⊢
        rw [List.nil_append, exponentLength_cons_of_stops he hy]
        obtain ⟨sign, later, rfl, hsigned⟩ := exists_sign x
        rw [exponentLength_cons he hsigned] at h ⊢
        split at h
        · next hzero => rw [if_pos hzero]
        · simp only [List.length_cons, List.length_nil] at h
          omega
      · obtain ⟨sign, u, rfl, hsigned⟩ := exists_sign v
        have hx := exponentLength_cons he (hsigned.append hv x)
        have hrun : runLength Char.isDigit (u ++ y) = runLength Char.isDigit (u ++ x) := by
          refine runLength_of_stops ?_ (hy.not_mem isDigit_of_isBlank)
          rw [List.append_assoc, hx, List.length_cons, List.length_append] at h
          split at h <;> omega
        rw [List.append_assoc, List.append_assoc, hx, exponentLength_cons he (hsigned.append hv y),
          hrun]
    · rw [exponentLength_of_ne he, exponentLength_of_ne he]

theorem fractionLength_of_stops (h : fractionLength (v ++ x) ≤ v.length) (hy : Stops y) :
    fractionLength (v ++ y) = fractionLength (v ++ x) := by
  cases v with
  | nil =>
    have hx : fractionLength x = 0 := Nat.le_zero.mp h
    rw [List.nil_append, List.nil_append, hx]
    unfold fractionLength
    split
    · have := hy '.' rfl
      cases this
    · rfl
  | cons c v =>
    by_cases hc : c = '.'
    · subst hc
      have hrun : runLength Char.isDigit (v ++ y) = runLength Char.isDigit (v ++ x) := by
        refine runLength_of_stops ?_ (hy.not_mem isDigit_of_isBlank)
        simp only [List.cons_append, fractionLength, List.length_cons] at h
        split at h
        · omega
        · omega
      simp only [List.cons_append, fractionLength, hrun]
    · have hzero : ∀ z, fractionLength (c :: z) = 0 := fun z => by
        unfold fractionLength
        split
        · next heq =>
          cases heq
          exact absurd rfl hc
        · rfl
      rw [List.cons_append, List.cons_append, hzero, hzero]

theorem number_of_stops (h : (number (v ++ x)).length ≤ v.length) (hy : Stops y) :
    number (v ++ y) = number (v ++ x) := by
  let whole := runLength Char.isDigit (v ++ x)
  let fraction := fractionLength ((v ++ x).drop whole)
  have hle : whole ≤ v.length := by
    unfold number at h
    dsimp only at h
    split at h
    · exact h
    · dsimp only at h
      omega
  have hwhole : runLength Char.isDigit (v ++ y) = whole :=
    runLength_of_stops hle (hy.not_mem isDigit_of_isBlank)
  have hfraction : fractionLength ((v ++ y).drop whole) = fraction := by
    have hshort : fraction ≤ v.length - whole := by
      unfold number at h
      dsimp only at h
      split at h
      · next hzero =>
        have : fraction = 0 := hzero
        omega
      · dsimp only at h
        have : whole + fraction + _ ≤ v.length := h
        omega
    show _ = fractionLength ((v ++ x).drop whole)
    rw [List.drop_append_of_le_length hle, List.drop_append_of_le_length hle]
    refine fractionLength_of_stops ?_ hy
    rw [← List.drop_append_of_le_length hle, List.length_drop]
    exact hshort
  unfold number at h ⊢
  dsimp only at h ⊢
  rw [hwhole, hfraction]
  show _ = if fraction = 0 then _ else _
  split
  · rw [List.take_append_of_le_length hle, List.take_append_of_le_length hle]
  · next hne =>
    have hlength : whole + fraction + exponentLength ((v ++ x).drop (whole + fraction)) ≤
        v.length := by
      rw [if_neg hne] at h
      exact h
    have hle' : whole + fraction ≤ v.length := by omega
    have hexponent : exponentLength ((v ++ y).drop (whole + fraction)) =
        exponentLength ((v ++ x).drop (whole + fraction)) := by
      rw [List.drop_append_of_le_length hle', List.drop_append_of_le_length hle']
      refine exponentLength_of_stops ?_ hy
      rw [← List.drop_append_of_le_length hle', List.length_drop]
      omega
    rw [hexponent, List.take_append_of_le_length hlength, List.take_append_of_le_length hlength]

/-! ## Words, literals and symbols -/

theorem word_of_stops (h : (Lexer.word (v ++ x)).length ≤ v.length) (hy : Stops y) :
    Lexer.word (v ++ y) = Lexer.word (v ++ x) := by
  have hlength : ∀ cs, (Lexer.word cs).length = runLength isWordPart cs := fun cs => by
    unfold Lexer.word
    dsimp only
    split <;> rfl
  rw [hlength] at h
  have hrun : runLength isWordPart (v ++ y) = runLength isWordPart (v ++ x) :=
    runLength_of_stops h (hy.not_mem isWordPart_of_isBlank)
  unfold Lexer.word
  dsimp only
  rw [hrun, List.take_append_of_le_length h, List.take_append_of_le_length h]

/-- What is within a text is within its front. -/
theorem exists_eq_append {w rest : List Char} (h : v ++ x = w ++ rest) (hle : w.length ≤ v.length) :
    ∃ v', v = w ++ v' := by
  obtain ⟨v', hv'⟩ := List.prefix_of_prefix_length_le (h ▸ List.prefix_append w rest)
    (List.prefix_append v x) hle
  exact ⟨v', hv'.symm⟩

/-- A literal does not look behind its closing quote. -/
theorem stringLiteral_of_closed (htoken : (stringLiteral (v ++ x)).token ≠ some .invalid)
    (h : (stringLiteral (v ++ x)).length ≤ v.length + 1) (y : List Char) :
    stringLiteral (v ++ y) = stringLiteral (v ++ x) := by
  unfold stringLiteral at h htoken ⊢
  cases hend : stringEnd (v ++ x) with
  | unclosed n =>
    simp only [hend] at htoken
    exact absurd rfl htoken
  | closed n =>
    simp only [hend] at h ⊢
    obtain ⟨body, rest, hsplit, rfl, hbody⟩ := exists_of_stringEnd_closed hend
    have hle : body.length + 1 ≤ v.length := Nat.le_of_succ_le_succ h
    rw [List.append_cons] at hsplit
    obtain ⟨v', rfl⟩ := exists_eq_append hsplit (by simpa using hle)
    have hy : stringEnd (body ++ ['"'] ++ v' ++ y) = .closed (body.length + 1) := by
      rw [List.append_assoc, List.append_assoc, List.singleton_append]
      exact stringEnd_append hbody (v' ++ y)
    have htake : ∀ z, (body ++ ['"'] ++ v' ++ z).take (body.length + 1) = body ++ ['"'] := by
      intro z
      rw [List.append_assoc]
      exact List.take_left' (by simp)
    rw [hy]
    dsimp only
    rw [htake, htake]

/-- Symbols have no blanks. -/
theorem isPrefixOf_of_stops (s : Symbol) (hne : cs ≠ []) (hy : Stops y) :
    s.chars.isPrefixOf (cs ++ y) = s.chars.isPrefixOf cs := by
  match cs, hne with
  | c :: d :: cs, _ => cases s <;> rfl
  | [c], _ =>
    cases y with
    | nil => rfl
    | cons b y =>
      rcases isBlank_iff.mp (hy b rfl) with rfl | rfl | rfl | rfl | rfl <;> cases s <;> rfl

theorem symbol_of_stops (hne : cs ≠ []) (htoken : (symbol (cs ++ x)).token ≠ some .invalid)
    (h : (symbol (cs ++ x)).length ≤ cs.length) (hy : Stops y) :
    symbol (cs ++ y) = symbol (cs ++ x) := by
  unfold symbol at h htoken ⊢
  cases hfind : Symbol.all.find? (·.chars.isPrefixOf (cs ++ x)) with
  | none =>
    simp only [hfind] at htoken
    exact absurd rfl htoken
  | some s =>
    simp only [hfind] at h
    obtain ⟨hs, before, after, hall, hbefore⟩ := List.find?_eq_some_iff_append.mp hfind
    have hfind' : Symbol.all.find? (·.chars.isPrefixOf (cs ++ y)) = some s := by
      refine List.find?_eq_some_iff_append.mpr ⟨?_, before, after, hall, fun s' hs' => ?_⟩
      · rw [isPrefixOf_of_stops s hne hy, List.isPrefixOf_iff_prefix]
        exact List.prefix_of_prefix_length_le (List.isPrefixOf_iff_prefix.mp hs)
          (List.prefix_append cs x) h
      · rw [isPrefixOf_of_stops s' hne hy, Bool.not_eq_true', Bool.eq_false_iff]
        intro hprefix
        have hlong := (List.isPrefixOf_iff_prefix.mp hprefix).trans (List.prefix_append cs x)
        have hno := hbefore s' hs'
        rw [List.isPrefixOf_iff_prefix.mpr hlong] at hno
        cases hno
    rw [hfind']

/-! ## Pieces -/

/-- A slash that opens no comment. -/
theorem chunk_slash (hline : ∀ z, cs ≠ '/' :: z) (hblock : ∀ z, cs ≠ '*' :: z) :
    chunk '/' cs = symbol ('/' :: cs) := by
  unfold chunk
  rw [if_neg (by decide), if_neg (by decide), if_neg (by decide), if_neg (by decide), if_pos rfl]
  split
  · exact absurd rfl (hline _)
  · exact absurd rfl (hblock _)
  · rfl

/-- A comment that is closed is passed over, -/
theorem chunk_closed (h : commentLength? cs = some n) : chunk '/' ('*' :: cs) = ⟨none, n + 2⟩ := by
  unfold chunk
  simp only [h]
  rfl

/-- and one that is not is invalid. -/
theorem chunk_unclosed (h : commentLength? cs = none) :
    chunk '/' ('*' :: cs) = ⟨some .invalid, cs.length + 2⟩ := by
  unfold chunk
  simp only [h]
  rfl

theorem chunk_slash_token (htoken : (chunk '/' cs).token = some token) (hvalid : token ≠ .invalid) :
    (∀ z, cs ≠ '/' :: z) ∧ ∀ z, cs ≠ '*' :: z := by
  constructor
  · rintro z rfl
    cases htoken
  · rintro z rfl
    cases hn : commentLength? z with
    | some length =>
      rw [chunk_closed hn] at htoken
      cases htoken
    | none =>
      rw [chunk_unclosed hn] at htoken
      exact hvalid (Option.some.inj htoken).symm

/-- A token that ends within a text is there whatever is behind, if the text stops there. -/
theorem chunk_of_stops (htoken : (chunk c (v ++ x)).token = some token) (hvalid : token ≠ .invalid)
    (h : (chunk c (v ++ x)).length ≤ v.length + 1) (hy : Stops y) :
    chunk c (v ++ y) = chunk c (v ++ x) := by
  have hne : (chunk c (v ++ x)).token ≠ some .invalid := by
    rw [htoken]
    exact fun heq => hvalid (Option.some.inj heq)
  have hsymbol := symbol_of_stops (x := x) (y := y) (List.cons_ne_nil c v)
  by_cases hslash : c = '/'
  · subst hslash
    obtain ⟨hline, hblock⟩ := chunk_slash_token htoken hvalid
    have hfirst : ∀ d, ¬ isBlank d → (∀ z, v ++ x ≠ d :: z) → ∀ z, v ++ y ≠ d :: z := by
      intro d hd hx z hz
      cases v with
      | nil => exact hd (hy d (by rw [← List.nil_append y, hz]; rfl))
      | cons e v =>
        obtain ⟨rfl, -⟩ := List.cons.inj hz
        exact hx (v ++ x) rfl
    rw [chunk_slash hline hblock] at hne h ⊢
    rw [chunk_slash (hfirst '/' (by decide) hline) (hfirst '*' (by decide) hblock)]
    exact hsymbol hne h hy
  unfold chunk at htoken hne h ⊢
  split
  · next hc =>
    rw [if_pos hc] at htoken
    cases htoken
  next hblank =>
  rw [if_neg hblank] at hne h
  split
  · next hc =>
    rw [if_pos hc] at h
    exact number_of_stops (v := c :: v) h hy
  next hdigit =>
  rw [if_neg hdigit] at hne h
  split
  · next hc =>
    rw [if_pos hc] at h
    exact word_of_stops (v := c :: v) h hy
  next hword =>
  rw [if_neg hword] at hne h
  split
  · next hc =>
    rw [if_pos hc] at hne h
    exact stringLiteral_of_closed hne h y
  next hquote =>
  rw [if_neg hquote, if_neg hslash] at hne h
  exact hsymbol hne h hy

theorem isSome_number (cs : List Char) : (number cs).token.isSome := by
  unfold number
  dsimp only
  split <;> rfl

theorem isSome_word (cs : List Char) : (Lexer.word cs).token.isSome := by
  unfold Lexer.word
  dsimp only
  split <;> rfl

theorem isSome_stringLiteral (cs : List Char) : (stringLiteral cs).token.isSome := by
  unfold stringLiteral
  split <;> rfl

theorem isSome_symbol (cs : List Char) : (symbol cs).token.isSome := by
  unfold symbol
  split <;> rfl

/-- What separates tokens: blanks, the rest of a line, or a comment with an end. -/
theorem gap_cases (h : (chunk c cs).token = none) :
    (isBlank c ∧ chunk c cs = ⟨none, runLength isBlank cs + 1⟩) ∨
    (∃ z, c = '/' ∧ cs = '/' :: z ∧ chunk c cs = ⟨none, runLength (· != '\n') z + 2⟩) ∨
    ∃ z n, c = '/' ∧ cs = '*' :: z ∧ commentLength? z = some n ∧ chunk c cs = ⟨none, n + 2⟩ := by
  by_cases hblank : isBlank c
  · exact .inl ⟨hblank, if_pos hblank⟩
  have hsome : ∀ piece : Chunk, piece.token.isSome → chunk c cs ≠ piece := by
    rintro piece hpiece rfl
    rw [h] at hpiece
    cases hpiece
  by_cases hslash : c = '/'
  · subst hslash
    by_cases hline : ∃ z, cs = '/' :: z
    · obtain ⟨z, rfl⟩ := hline
      exact .inr (.inl ⟨z, rfl, rfl, rfl⟩)
    by_cases hblock : ∃ z, cs = '*' :: z
    · obtain ⟨z, rfl⟩ := hblock
      cases hn : commentLength? z with
      | some n => exact .inr (.inr ⟨z, n, rfl, rfl, hn, chunk_closed hn⟩)
      | none => exact absurd (chunk_unclosed hn) (hsome _ rfl)
    · have hchunk := chunk_slash (fun z hz => hline ⟨z, hz⟩) fun z hz => hblock ⟨z, hz⟩
      exact absurd hchunk (hsome _ (isSome_symbol _))
  · have hchunk : chunk c cs = if c.isDigit then number (c :: cs)
        else if isWordStart c then Lexer.word (c :: cs)
        else if c = '"' then stringLiteral cs else symbol (c :: cs) := by
      unfold chunk
      rw [if_neg hblank, if_neg hslash]
    refine absurd hchunk (hsome _ ?_)
    split
    · exact isSome_number _
    · split
      · exact isSome_word _
      · split
        · exact isSome_stringLiteral _
        · exact isSome_symbol _

theorem runLength_cons (p : Char → Bool) (c : Char) (cs : List Char) :
    runLength p (c :: cs) = if p c then runLength p cs + 1 else 0 := by
  unfold runLength
  rw [List.takeWhile_cons]
  split <;> rfl

/-- Up to what it stops at a text is one run. -/
theorem run_of_runLength (h : runLength p (v ++ x) = v.length) : Run p v x := by
  have hall : ∀ c ∈ v, p c := by
    by_contra hnot
    rw [runLength_append_of_not hnot] at h
    exact hnot ((List.takeWhile_prefix p).eq_of_length h ▸
      List.all_eq_true.mp (List.all_takeWhile (p := p) (l := v)))
  refine ⟨hall, fun c hc => ?_⟩
  obtain ⟨x, rfl⟩ := List.head?_eq_some_iff.mp hc
  rw [runLength_append_of_all hall, runLength_cons] at h
  split at h
  · omega
  · next hnot => exact Bool.not_eq_true _ ▸ hnot

/-- A comment does not look behind its end. -/
theorem commentLength?_of_eq (h : commentLength? (v ++ x) = some v.length) (y : List Char) :
    commentLength? (v ++ y) = some v.length := by
  obtain ⟨body, rest, hsplit, hlength, hbody⟩ := exists_of_commentLength?_eq_some h
  have hv : v.length = (body ++ ['*', '/']).length := by
    rw [List.length_append]
    exact hlength
  have hsplit : v ++ x = (body ++ ['*', '/']) ++ rest :=
    hsplit.trans (List.append_assoc body ['*', '/'] rest).symm
  obtain ⟨rfl, -⟩ := List.append_inj hsplit hv
  rw [hv, List.append_assoc, List.length_append]
  exact commentLength?_append hbody y

/-- What separates tokens, by its characters and what is behind it. -/
inductive Separates (x : List Char) : List Char → Prop where
  | blanks {u : List Char} : u ≠ [] → Run isBlank u x → Separates x u
  | line {u : List Char} : Run (· != '\n') u x → Separates x ('/' :: '/' :: u)
  | block {u : List Char} : commentLength? (u ++ x) = some u.length →
      Separates x ('/' :: '*' :: u)

theorem separates_of_chunk (h : chunk c (v ++ x) = ⟨none, v.length + 1⟩) :
    Separates x (c :: v) := by
  have hlength {m : Nat} (hchunk : chunk c (v ++ x) = ⟨none, m⟩) : m = v.length + 1 :=
    congrArg Chunk.length (hchunk.symm.trans h)
  rcases gap_cases (congrArg Chunk.token h) with ⟨hc, hchunk⟩ | ⟨later, rfl, hlater, hchunk⟩ |
    ⟨later, n, rfl, hlater, hcomment, hchunk⟩
  · have hrun := run_of_runLength (Nat.succ.inj (hlength hchunk))
    exact .blanks (List.cons_ne_nil c v) ⟨List.forall_mem_cons.mpr ⟨hc, hrun.all⟩, hrun.stops⟩
  · cases v with
    | nil => cases hlength hchunk
    | cons d v =>
      obtain ⟨rfl, rfl⟩ := List.cons.inj hlater
      exact .line (run_of_runLength (Nat.add_right_cancel (hlength hchunk)))
  · cases v with
    | nil => cases hlength hchunk
    | cons d v =>
      obtain ⟨rfl, rfl⟩ := List.cons.inj hlater
      exact .block (hcomment.trans (congrArg some (Nat.add_right_cancel (hlength hchunk))))

theorem Separates.chunk_eq (h : Separates x (c :: v)) :
    chunk c (v ++ x) = ⟨none, v.length + 1⟩ := by
  have hrun {p : Char → Bool} {u : List Char} (hrun : Run p u x) :
      runLength p (u ++ x) = u.length := congrArg List.length hrun.takeWhile
  generalize hcv : c :: v = u at h
  cases h with
  | blanks hne h =>
    subst hcv
    obtain ⟨hc, hv⟩ := List.forall_mem_cons.mp h.all
    have hchunk : chunk c (v ++ x) = ⟨none, runLength isBlank (v ++ x) + 1⟩ := if_pos hc
    rw [hchunk, hrun ⟨hv, h.stops⟩]
  | @line u h =>
    obtain ⟨rfl, rfl⟩ := List.cons.inj hcv
    show (⟨none, runLength (· != '\n') (u ++ x) + 2⟩ : Chunk) = _
    rw [hrun h]
    rfl
  | @block u h =>
    obtain ⟨rfl, rfl⟩ := List.cons.inj hcv
    exact chunk_closed h

/-- What separates tokens ends where it does because of the character that follows. -/
theorem chunk_of_gap {z : Char} (h : chunk c (v ++ z :: x) = ⟨none, v.length + 1⟩)
    (y : List Char) : chunk c (v ++ z :: y) = ⟨none, v.length + 1⟩ := by
  refine Separates.chunk_eq ?_
  have hsep := separates_of_chunk h
  generalize c :: v = u at hsep
  cases hsep with
  | blanks hne h => exact .blanks hne ⟨h.all, h.stops⟩
  | line h => exact .line ⟨h.all, h.stops⟩
  | block h => exact .block (commentLength?_of_eq h _)

end FlatScope.Lexer
