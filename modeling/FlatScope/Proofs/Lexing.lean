import FlatScope.Proofs.Patterns
import FlatScope.Proofs.Spelling

/-!
# Tokens of a text

What is known of the tokens that `Lexer.lex` makes: every one is the token of a piece
(`exists_chunk_of_mem_lex`), and an identifier is the token of a word (`exists_word_of_mem_lex`). So
all its characters may stand in one (`isWordPart_of_mem_lex`), and it is never spelled like a
keyword (`ofText?_eq_none_of_mem_lex`); neither is a name in what the text says
(`ofText?_eq_none_of_spells`).
-/

namespace FlatScope

theorem Token.eq_of_word? {token : Token} {name : String} (h : token.word? = some (.name name)) :
    token = .identifier name := by
  cases token with
  | identifier other =>
    cases h
    rfl
  | string raw =>
    obtain ⟨_, -, h⟩ := Option.map_eq_some_iff.mp h
    cases h
  | _ => cases h

namespace Lexer

variable {c : Char} {cs : List Char} {l : Lexeme} {name : String}

theorem exists_chunk_of_mem_lexWithin {fuel start : Nat} (h : l ∈ lexWithin fuel start cs) :
    ∃ c cs', (chunk c cs').token = some l.token := by
  induction fuel generalizing start cs with
  | zero => cases h
  | succ fuel ih =>
    cases cs with
    | nil => cases h
    | cons c cs =>
      rw [lexWithin] at h
      split at h
      · next token htoken =>
        rcases List.mem_cons.mp h with rfl | h
        · exact ⟨c, cs, htoken⟩
        · exact ih h
      · exact ih h

/-- Every token was made of a piece of text. -/
theorem exists_chunk_of_mem_lex (h : l ∈ lex cs) : ∃ c cs', (chunk c cs').token = some l.token :=
  exists_chunk_of_mem_lexWithin h

theorem ofText?_eq_none_of_word (h : (word cs).token = some (.identifier name)) :
    Keyword.ofText? name = none := by
  unfold word at h
  dsimp only at h
  split at h
  · cases h
  · next hnone =>
    cases h
    exact hnone

theorem isWordPart_of_word (h : (word cs).token = some (.identifier name)) :
    ∀ c ∈ name.toList, isWordPart c := by
  obtain ⟨front, rest, rfl, hlength, hrun⟩ := exists_run isWordPart cs
  unfold word at h
  dsimp only at h
  rw [hlength, List.take_left] at h
  split at h
  · cases h
  · cases h
    rw [String.toList_ofList]
    exact hrun.all

theorem number_ne_identifier : (number cs).token ≠ some (.identifier name) := by
  unfold number
  dsimp only
  split
  · split <;> exact fun h => nomatch h
  · exact fun h => nomatch h

theorem stringLiteral_ne_identifier : (stringLiteral cs).token ≠ some (.identifier name) := by
  unfold stringLiteral
  split <;> exact fun h => nomatch h

theorem symbol_ne_identifier : (symbol cs).token ≠ some (.identifier name) := by
  unfold symbol
  split <;> exact fun h => nomatch h

/-- Only words become identifiers. -/
theorem word_of_chunk (h : (chunk c cs).token = some (.identifier name)) :
    isWordStart c ∧ (word (c :: cs)).token = some (.identifier name) := by
  unfold chunk at h
  split at h
  · cases h
  split at h
  · exact absurd h number_ne_identifier
  split at h
  · next hstart => exact ⟨hstart, h⟩
  split at h
  · exact absurd h stringLiteral_ne_identifier
  split at h
  · split at h
    · cases h
    · split at h <;> cases h
    · exact absurd h symbol_ne_identifier
  · exact absurd h symbol_ne_identifier

theorem exists_word_of_mem_lex (h : l ∈ lex cs) (hl : l.token = .identifier name) :
    ∃ c cs', isWordStart c ∧ (word (c :: cs')).token = some (.identifier name) := by
  obtain ⟨c, cs', hchunk⟩ := exists_chunk_of_mem_lex h
  exact ⟨c, cs', word_of_chunk (hchunk.trans (congrArg some hl))⟩

theorem ofText?_eq_none_of_mem_lex (h : l ∈ lex cs) (hl : l.token = .identifier name) :
    Keyword.ofText? name = none := by
  obtain ⟨c, cs', -, hword⟩ := exists_word_of_mem_lex h hl
  exact ofText?_eq_none_of_word hword

/-- A name is letters, digits and underscores. -/
theorem isWordPart_of_mem_lex (h : l ∈ lex cs) (hl : l.token = .identifier name) :
    ∀ c ∈ name.toList, isWordPart c := by
  obtain ⟨c, cs', -, hword⟩ := exists_word_of_mem_lex h hl
  exact isWordPart_of_word hword

/-- A name in what the text says is one of its tokens. -/
theorem exists_lexeme_of_spells {words : List Word}
    (h : Spells ((lex cs).map (·.token)) words) (hname : .name name ∈ words) :
    ∃ l ∈ lex cs, l.token = .identifier name := by
  have hmem : some (Word.name name) ∈ ((lex cs).map (·.token)).map Token.word? := by
    rw [show ((lex cs).map (·.token)).map Token.word? = words.map some from h]
    exact List.mem_map_of_mem hname
  obtain ⟨token, htoken, hword⟩ := List.mem_map.mp hmem
  obtain ⟨l, hl, rfl⟩ := List.mem_map.mp htoken
  exact ⟨l, hl, Token.eq_of_word? hword⟩

theorem ofText?_eq_none_of_spells {words : List Word}
    (h : Spells ((lex cs).map (·.token)) words) (hname : .name name ∈ words) :
    Keyword.ofText? name = none := by
  obtain ⟨l, hl, htoken⟩ := exists_lexeme_of_spells h hname
  exact ofText?_eq_none_of_mem_lex hl htoken

end Lexer

end FlatScope
