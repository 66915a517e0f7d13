import FlatScope.Diagnostic
import FlatScope.Grammar.Program
import FlatScope.Token.Lexer

/-!
# From a source text to a syntax tree

`Ast.parse` reads a text and builds its tree in an empty arena, or says where the text stops making
sense.
-/

namespace FlatScope

open Grammar

namespace SyntaxError

/-- A failure at a token is placed on that token, one behind the last token at the end. -/
def ofFailure (source length : Nat) (lexemes : List Lexeme) (failure : Failure) : SyntaxError :=
  match lexemes[failure.pos]? with
  | some l => ⟨⟨source, l.start, l.stop⟩, failure.cause⟩
  | none => ⟨⟨source, length, length⟩, failure.cause⟩

end SyntaxError

namespace Ast

/-- Reads tokens as one of the parts of the language; `length` is the length of their source. -/
def ofLexemes (e : Entry) (source length : Nat) (lexemes : List Lexeme) :
    Except SyntaxError (Ast × NodeId) :=
  let start : Builder := { lexemes := lexemes.toArray, length, ast := .empty source }
  match (entry e).run (lexemes.map (·.token)) start with
  | .ok (root, b) => .ok (b.ast, root)
  | .error furthest =>
    .error (.ofFailure source length lexemes (furthest.getD ⟨0, .expected [] none⟩))

/-- Reads a text as one of the parts of the language: its tree and the node at the top. -/
def parse (e : Entry) (source : Nat) (text : String) : Except SyntaxError (Ast × NodeId) :=
  ofLexemes e source text.utf8ByteSize (Lexer.lex text.toList)

end Ast

end FlatScope
