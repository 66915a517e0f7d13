import FlatScope.Binary64.Shortest

/-!
# Tokens

A `Token` is a symbol, a keyword, a literal, an identifier or `invalid`, which stands for text that
spells none of the others. Symbols and keywords know their spelling (`text`) and the name by which
messages call them (`name`); `Token.text` is the form in which a message shows a token.
-/

namespace FlatScope

inductive Symbol where
  | leftParen | rightParen | leftCurly | rightCurly
  | star | slash | percent | plus | minus
  | semicolon | dot | comma | assign | bang
  | conjunction | disjunction
  | less | greater | lessEqual | greaterEqual | notEqual | equalEqual
deriving DecidableEq, Repr

namespace Symbol

/-- All symbols, those of two characters before those of one. -/
def all : List Symbol :=
  [conjunction, disjunction, lessEqual, greaterEqual, notEqual, equalEqual,
   leftParen, rightParen, leftCurly, rightCurly, star, slash, percent, plus, minus,
   semicolon, dot, comma, assign, bang, less, greater]

def chars : Symbol → List Char
  | leftParen => ['(']
  | rightParen => [')']
  | leftCurly => ['\x7b']
  | rightCurly => ['\x7d']
  | star => ['*']
  | slash => ['/']
  | percent => ['%']
  | plus => ['+']
  | minus => ['-']
  | semicolon => [';']
  | dot => ['.']
  | comma => [',']
  | assign => ['=']
  | bang => ['!']
  | conjunction => ['&', '&']
  | disjunction => ['|', '|']
  | less => ['<']
  | greater => ['>']
  | lessEqual => ['<', '=']
  | greaterEqual => ['>', '=']
  | notEqual => ['!', '=']
  | equalEqual => ['=', '=']

def text (s : Symbol) : String := String.ofList s.chars

def name : Symbol → String
  | leftParen => "LeftParen"
  | rightParen => "RightParen"
  | leftCurly => "LeftCurly"
  | rightCurly => "RightCurly"
  | star => "Star"
  | slash => "Slash"
  | percent => "Percent"
  | plus => "Plus"
  | minus => "Minus"
  | semicolon => "Semicolon"
  | dot => "Dot"
  | comma => "Comma"
  | assign => "Assign"
  | bang => "Bang"
  | conjunction => "Conjunction"
  | disjunction => "Disjunction"
  | less => "Less"
  | greater => "Greater"
  | lessEqual => "LessEqual"
  | greaterEqual => "GreaterEqual"
  | notEqual => "NotEqual"
  | equalEqual => "EqualEqual"

theorem mem_all (s : Symbol) : s ∈ all := by cases s <;> decide

end Symbol

inductive Keyword where
  | class_ | int | float | string | void
  | if_ | else_ | while_ | return_ | break_ | continue_
  | print | new | null | this
deriving DecidableEq, Repr

namespace Keyword

def all : List Keyword :=
  [class_, int, float, string, void, if_, else_, while_, return_, break_, continue_, print, new,
   null, this]

def text : Keyword → String
  | class_ => "class"
  | int => "int"
  | float => "float"
  | string => "string"
  | void => "void"
  | if_ => "if"
  | else_ => "else"
  | while_ => "while"
  | return_ => "return"
  | break_ => "break"
  | continue_ => "continue"
  | print => "print"
  | new => "new"
  | null => "null"
  | this => "this"

def name : Keyword → String
  | class_ => "ClassKW"
  | int => "IntKW"
  | float => "FloatKW"
  | string => "StringKW"
  | void => "VoidKW"
  | if_ => "IfKW"
  | else_ => "ElseKW"
  | while_ => "WhileKW"
  | return_ => "ReturnKW"
  | break_ => "BreakKW"
  | continue_ => "ContinueKW"
  | print => "PrintKW"
  | new => "NewKW"
  | null => "NullKW"
  | this => "ThisKW"

/-- The keyword spelled by `word`, if it is one. -/
def ofText? (word : String) : Option Keyword := all.find? (·.text == word)

theorem mem_all (k : Keyword) : k ∈ all := by cases k <;> decide

end Keyword

/-- A string literal keeps its source text, quotes and escapes included. -/
inductive Token where
  | symbol (symbol : Symbol)
  | keyword (keyword : Keyword)
  | int (value : Nat)
  | float (value : Binary64)
  | string (raw : String)
  | identifier (name : String)
  | invalid
deriving DecidableEq, Repr

namespace Token

/-- The name of the token's class. -/
def kind : Token → String
  | symbol s => s.name
  | keyword k => k.name
  | int _ => "IntLiteral"
  | float _ => "FloatLiteral"
  | string _ => "StringLiteral"
  | identifier _ => "Identifier"
  | invalid => "Error"

/-- The token as messages show it. -/
def text : Token → String
  | symbol s => s.name
  | keyword k => k.name
  | int value => toString value
  | float value => value.text
  | string raw => raw
  | identifier name => name
  | invalid => "<invalid>"

end Token

/-- A token and the bytes it was read from. -/
structure Lexeme where
  token : Token
  start : Nat
  stop : Nat
deriving DecidableEq, Repr

end FlatScope
