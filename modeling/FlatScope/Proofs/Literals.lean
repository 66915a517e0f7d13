import FlatScope.Proofs.Escaping
import FlatScope.Proofs.Slices
import FlatScope.Proofs.Writing

/-!
# Any text as a literal

No quote in an escaped text ends a literal (`Escape.encode_mem`), so with quotes around it the text
is one token (`Lexer.lex_literal`) and is read as one node (`Ast.parse_literal`). In any source
literals begin and end with quotes that can be cut off (`Lexer.quoted_of_mem_locate`).
-/

namespace FlatScope

open scoped Computability

/-- No quote ends the literal too early, and no backslash takes its closing quote. -/
theorem Escape.encode_mem (cs : List Char) : encode cs ∈ Lexer.stringItem∗ := by
  induction cs with
  | nil => exact Language.nil_mem_kstar _
  | cons c cs ih =>
    by_cases hc : c = '"' ∨ c = '\\'
    · have hitem : ['\\', c] ∈ Lexer.stringItem := by
        refine .inl (Lexer.mem_exactly_mul.mpr ⟨[c], ⟨c, ?_, rfl⟩, rfl⟩)
        rcases hc with rfl | rfl <;> decide
      rw [encode_cons_of_escaped hc]
      exact Lexer.append_mem_kstar hitem ih
    · have hitem : [c] ∈ Lexer.stringItem :=
        .inr ⟨c, by simpa [and_comm] using hc, rfl⟩
      rw [encode_cons_of_plain hc]
      exact Lexer.append_mem_kstar hitem ih

namespace Lexer

open Segment

/-- A literal alone is one token. -/
theorem lex_literal (text : String) : lex (Escape.literal text).toList =
    [⟨.string (Escape.literal text), 0, (Escape.literal text).utf8ByteSize⟩] := by
  have hwrites : Token.Writes (.string (Escape.literal text)) (Escape.literal text).toList := by
    unfold Escape.literal
    rw [String.toList_ofList]
    exact .string (Escape.encode_mem text.toList)
  have hread := scan_written (List.forall_mem_singleton.mpr (.token hwrites))
    (List.isChain_singleton _) 0
  have hbytes : byteLength (Escape.literal text).toList =
      (Escape.literal text).utf8ByteSize := by
    rw [← utf8ByteSize_ofList, String.ofList_toList]
  rw [text_cons, show Segment.text [] = [] from rfl, List.append_nil] at hread
  simp only [scan, lexemes, lexeme?, Option.map_some, Option.toList_some, List.append_nil,
    Nat.zero_add, hbytes] at hread
  unfold lex
  exact hread

/-- Literals begin and end with quotes of their own. -/
theorem exists_of_string_mem_lex {cs : List Char} {l : Lexeme} {raw : String} (h : l ∈ lex cs)
    (hl : l.token = .string raw) : ∃ body, raw = String.ofList ('"' :: (body ++ ['"'])) := by
  obtain ⟨c, cs', hchunk⟩ := exists_chunk_of_mem_lex h
  rw [hl] at hchunk
  obtain ⟨word, rest, hsplit, -, -, hreads⟩ := takes_chunk c cs'
  rw [hchunk] at hreads
  obtain ⟨v, -, rfl⟩ := mem_string_iff.mp (hreads.longest .string rfl).accepts
  obtain ⟨rfl, -⟩ := List.cons.inj hsplit
  replace hchunk : (stringLiteral cs').token = some (.string raw) := hchunk
  unfold stringLiteral at hchunk
  split at hchunk
  · next n hn =>
    obtain ⟨body, later, rfl, rfl, -⟩ := exists_of_stringEnd_closed hn
    have htake : (body ++ '"' :: later).take (body.length + 1) = body ++ ['"'] := by
      rw [List.append_cons]
      exact List.take_left' (by simp)
    rw [htake] at hchunk
    cases hchunk
    exact ⟨body, rfl⟩
  · cases hchunk

/-- Its quotes can be cut off from any literal, and what is between them is decoded. -/
theorem quoted_of_mem_locate {source : Nat} {text raw : String} {loc : Loc}
    (h : (.string raw, loc) ∈ locate source text) :
    2 ≤ raw.utf8ByteSize ∧ (⟨1⟩ : String.Pos.Raw).IsValid raw ∧
      (⟨raw.utf8ByteSize - 1⟩ : String.Pos.Raw).IsValid raw ∧
      ∃ body, raw = "\"" ++ body ++ "\"" ∧
        Escape.unquote? raw = (Escape.decode body.toList).map String.ofList := by
  obtain ⟨l, hl, heq⟩ := List.mem_map.mp h
  obtain ⟨body, rfl⟩ := exists_of_string_mem_lex hl (congrArg Prod.fst heq)
  have hsize : (String.ofList ('"' :: (body ++ ['"']))).utf8ByteSize =
      1 + (byteLength body + 1) := by
    rw [utf8ByteSize_ofList, byteLength, byteLength_append]
    rfl
  refine ⟨by omega, ?_, ?_, .ofList body, ?_, ?_⟩
  · have hopening : (String.ofList ('"' :: (body ++ ['"']))).toList = ['"'] ++ (body ++ ['"']) :=
      String.toList_ofList
    exact isValid_byteLength hopening
  · have hclosing : (String.ofList ('"' :: (body ++ ['"']))).toList = ('"' :: body) ++ ['"'] :=
      String.toList_ofList
    rw [hsize, ← Nat.add_assoc, Nat.add_sub_cancel]
    exact isValid_byteLength hclosing
  · show String.ofList (['"'] ++ (body ++ ['"'])) = _
    rw [String.ofList_append, String.ofList_append, ← String.append_assoc]
  · rw [Escape.unquote?_quoted, String.toList_ofList]

end Lexer

/-- Without its children a string is what it was. -/
theorem NodeKind.eq_of_bare_eq_string {kind : NodeKind} {t : String}
    (h : kind.bare = .string t) : kind = .string t := by
  cases kind with
  | type spec => cases spec <;> cases h
  | _ => cases h <;> rfl

namespace Ast

open Grammar

variable {ast : Ast} {o : Outline} {t : String}

/-- A tree that stands for a string is one node. -/
theorem Shows.string_eq (h : ast.Shows o) (ho : o.piece? = some (.expr (.string t))) :
    ∃ n, o = .node n [] ∧ n.kind = .string t ∧ ast.get? n.id = some n := by
  cases h with
  | @node n os hn hk _ =>
    obtain ⟨parts, hparts, hassemble⟩ := Outline.piece?_node_eq_some.mp ho
    obtain ⟨hkind, rfl⟩ := Prod.mk.inj
      (NodeKind.top_of_assemble hassemble (length_children hk hparts))
    obtain rfl := List.map_eq_nil_iff.mp hparts
    exact ⟨n, rfl, NodeKind.eq_of_bare_eq_string hkind.symm, hn⟩

/-- The tree read from a literal is one node, placed on the whole literal. -/
theorem exists_string (source : Nat) (t : String) :
    ∃ ast root, parse .expression source (Escape.literal t) = .ok (ast, root) ∧ ast.ids = [root] ∧
      ast.get? root =
        some ⟨root, .string t, ⟨source, 0, (Escape.literal t).utf8ByteSize⟩⟩ := by
  have hspells : Spells [.string (Escape.literal t)] (Piece.expr (.string t)).words := by
    show [(Escape.unquote? (Escape.literal t)).map Word.text] = [some (.text t)]
    rw [Escape.unquote?_literal]
    rfl
  have hentry : (Piece.expr (.string t)).top.1.alone? = some .expression := rfl
  have hbuilds := builds_entry hentry rfl hspells
  obtain ⟨ast, o, hparse, hadds, ho⟩ : ∃ ast o,
      parse .expression source (Escape.literal t) = .ok (ast, o.id) ∧
        (empty source).Adds ast [o] ∧ o.piece? = some (.expr (.string t)) := by
    unfold parse
    rw [Lexer.lex_literal]
    exact ofLexemes_of_builds _ _ hbuilds
  obtain ⟨n, rfl, hkind, hn⟩ := (hadds.shows o List.mem_cons_self).string_eq ho
  refine ⟨ast, n.id, hparse, List.perm_singleton.mp (outline_of_adds_empty hadds).1.symm, ?_⟩
  obtain ⟨m, -, hm, hcovers, -⟩ := (occupies_of_lays (lays_entry hentry) hparse).exists_node
  cases hn.symm.trans hm
  rw [Lexer.lex_literal] at hcovers
  obtain ⟨first, last, hfirst, hlast, hloc⟩ := hcovers.exists_of_lt Nat.one_pos
  cases hfirst
  cases hlast
  rw [hn]
  cases n
  cases hkind
  cases hloc
  rfl

/--
Every text can be written as a literal: with a backslash before each quote and each backslash, and
between quotes, it is one token and is read as one node that stands for the text. In any source the
quotes of a literal can be cut off, and what is between them is decoded.
-/
theorem parse_literal :
    (∀ source t, Lexer.locate source (Escape.literal t) =
        [(.string (Escape.literal t), ⟨source, 0, (Escape.literal t).utf8ByteSize⟩)] ∧
      ∃ ast root, parse .expression source (Escape.literal t) = .ok (ast, root) ∧
        ast.ids = [root] ∧ ast.get? root =
          some ⟨root, .string t, ⟨source, 0, (Escape.literal t).utf8ByteSize⟩⟩) ∧
    ∀ source text raw loc, (.string raw, loc) ∈ Lexer.locate source text →
      2 ≤ raw.utf8ByteSize ∧ (⟨1⟩ : String.Pos.Raw).IsValid raw ∧
        (⟨raw.utf8ByteSize - 1⟩ : String.Pos.Raw).IsValid raw ∧
        ∃ body, raw = "\"" ++ body ++ "\"" ∧
          Escape.unquote? raw = (Escape.decode body.toList).map String.ofList := by
  refine ⟨fun source t => ⟨?_, exists_string source t⟩, fun _ _ _ _ h =>
    Lexer.quoted_of_mem_locate h⟩
  unfold Lexer.locate
  rw [Lexer.lex_literal]
  rfl

/-- A text that ends in a backslash, and a literal with escapes between other tokens. -/
theorem parse_literal_backslash :
    (Escape.literal "\n\"é\\" = "\"\n\\\"é\\\\\"" ∧
      ∃ ast root, parse .expression 2 "\"\n\\\"é\\\\\"" = .ok (ast, root) ∧ ast.ids = [root] ∧
        ast.get? root = some ⟨root, .string "\n\"é\\", ⟨2, 0, 9⟩⟩) ∧
    (.string "\"\\u00e9\"", ⟨0, 2, 10⟩) ∈ Lexer.locate 0 "x \"\\u00e9\"+" ∧
      2 ≤ "\"\\u00e9\"".utf8ByteSize ∧
      (⟨"\"\\u00e9\"".utf8ByteSize - 1⟩ : String.Pos.Raw).IsValid "\"\\u00e9\"" := by
  have hliteral : Escape.literal "\n\"é\\" = "\"\n\\\"é\\\\\"" := by decide +kernel
  have hmem : (.string "\"\\u00e9\"", ⟨0, 2, 10⟩) ∈ Lexer.locate 0 "x \"\\u00e9\"+" := by
    decide +kernel
  obtain ⟨hleast, -, hvalid, -⟩ := parse_literal.2 _ _ _ _ hmem
  obtain ⟨ast, root, hparse, hids, hnode⟩ := (parse_literal.1 2 "\n\"é\\").2
  have hsize : "\"\n\\\"é\\\\\"".utf8ByteSize = 9 := by decide +kernel
  rw [hliteral] at hparse hnode
  rw [hsize] at hnode
  exact ⟨⟨hliteral, ast, root, hparse, hids, hnode⟩, hmem, hleast, hvalid⟩

end Ast

end FlatScope
