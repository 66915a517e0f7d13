import FlatScope.Binary64.Reading
import FlatScope.Source.Loc
import FlatScope.Token.Basic

/-!
# Splitting a source into tokens

`chunk` finds the longest piece at the front of a text: blank space, a comment or a token. Text that
starts nothing becomes an `invalid` token. `lex` repeats this to the end and counts bytes; `locate`
places the tokens in their source.
-/

namespace FlatScope.Lexer

def isBlank (c : Char) : Bool :=
  c == ' ' || c == '\t' || c == '\r' || c == '\n' || c == '\x0c'

def isWordStart (c : Char) : Bool := c.isAlpha || c == '_'

def isWordPart (c : Char) : Bool := c.isAlphanum || c == '_'

/-- The largest value of an integer literal. -/
def maxInt : Nat := Nat.pow 2 63 - 1

/-- How many characters at the front satisfy `p`. -/
def runLength (p : Char → Bool) (cs : List Char) : Nat := (cs.takeWhile p).length

/-- A piece of source: its token, or `none` for blank space and comments, and its characters. -/
structure Chunk where
  token : Option Token
  length : Nat
deriving DecidableEq, Repr

/-- The characters up to and including the first `*/`, if there is one. -/
def commentLength? : List Char → Option Nat
  | '*' :: '/' :: _ => some 2
  | _ :: cs => (commentLength? cs).map (· + 1)
  | [] => none

/-- What a quote opens: a literal with its closing quote, or a stretch that no quote closes. -/
inductive StringEnd where
  | closed (length : Nat)
  | unclosed (length : Nat)
deriving DecidableEq, Repr

def StringEnd.later (n : Nat) : StringEnd → StringEnd
  | closed length => closed (length + n)
  | unclosed length => unclosed (length + n)

/--
The characters behind an opening quote that belong to its literal. A backslash takes the next
character with it; before a line feed or at the end of the text it stops the literal.
-/
def stringEnd : List Char → StringEnd
  | [] => .unclosed 0
  | ['\\'] => .unclosed 0
  | '\\' :: c :: cs => if c = '\n' then .unclosed 0 else (stringEnd cs).later 2
  | '"' :: _ => .closed 1
  | _ :: cs => (stringEnd cs).later 1

/-- The length of the exponent at the front of `cs`, zero if there is none. -/
def exponentLength : List Char → Nat
  | e :: cs =>
    if e = 'e' ∨ e = 'E' then
      let sign := match cs with
        | '+' :: _ => 1
        | '-' :: _ => 1
        | _ => 0
      let digits := runLength Char.isDigit (cs.drop sign)
      if digits = 0 then 0 else 1 + sign + digits
    else 0
  | [] => 0

/-- The length of the point and the digits at the front of `cs`, zero unless both are there. -/
def fractionLength : List Char → Nat
  | '.' :: cs =>
    let digits := runLength Char.isDigit cs
    if digits = 0 then 0 else 1 + digits
  | _ => 0

/-- The number at the front of `cs`, which begins with a digit. -/
def number (cs : List Char) : Chunk :=
  let whole := runLength Char.isDigit cs
  let fraction := fractionLength (cs.drop whole)
  if fraction = 0 then
    let value := Binary64.digitsValue (cs.take whole)
    ⟨some (if value ≤ maxInt then .int value else .invalid), whole⟩
  else
    let length := whole + fraction + exponentLength (cs.drop (whole + fraction))
    ⟨some (.float (Binary64.ofNumeral false (cs.take length))), length⟩

/-- The keyword or identifier at the front of `cs`, which begins a word. -/
def word (cs : List Char) : Chunk :=
  let length := runLength isWordPart cs
  let text := String.ofList (cs.take length)
  match Keyword.ofText? text with
  | some keyword => ⟨some (.keyword keyword), length⟩
  | none => ⟨some (.identifier text), length⟩

/-- The string literal that a quote before `cs` opens. -/
def stringLiteral (cs : List Char) : Chunk :=
  match stringEnd cs with
  | .closed length => ⟨some (.string (String.ofList ('"' :: cs.take length))), length + 1⟩
  | .unclosed length => ⟨some .invalid, length + 1⟩

/-- The longest symbol at the front of `cs`; a character that starts none is invalid by itself. -/
def symbol (cs : List Char) : Chunk :=
  match Symbol.all.find? (·.chars.isPrefixOf cs) with
  | some s => ⟨some (.symbol s), s.chars.length⟩
  | none => ⟨some .invalid, 1⟩

/-- The longest piece at the front of `c :: cs`. -/
def chunk (c : Char) (cs : List Char) : Chunk :=
  if isBlank c then ⟨none, runLength isBlank cs + 1⟩
  else if c.isDigit then number (c :: cs)
  else if isWordStart c then word (c :: cs)
  else if c = '"' then stringLiteral cs
  else if c = '/' then
    match cs with
    | '/' :: rest => ⟨none, runLength (· != '\n') rest + 2⟩
    | '*' :: rest =>
      match commentLength? rest with
      | some length => ⟨none, length + 2⟩
      | none => ⟨some .invalid, rest.length + 2⟩
    | _ => symbol (c :: cs)
  else symbol (c :: cs)

/-- The number of bytes of a text in UTF-8. -/
def byteLength : List Char → Nat
  | [] => 0
  | c :: cs => c.utf8Size + byteLength cs

theorem byteLength_append (cs ds : List Char) :
    byteLength (cs ++ ds) = byteLength cs + byteLength ds := by
  induction cs with
  | nil => exact (Nat.zero_add _).symm
  | cons c cs ih => rw [List.cons_append, byteLength, byteLength, ih, Nat.add_assoc]

theorem byteLength_pos {cs : List Char} (h : cs ≠ []) : 0 < byteLength cs := by
  cases cs with
  | nil => exact absurd rfl h
  | cons c cs => exact Nat.lt_of_lt_of_le c.utf8Size_pos (Nat.le_add_right _ _)

theorem utf8ByteSize_ofList (cs : List Char) :
    (String.ofList cs).utf8ByteSize = byteLength cs := by
  induction cs with
  | nil => rfl
  | cons c cs ih =>
    have hcons : String.ofList (c :: cs) = String.singleton c ++ String.ofList cs := by
      rw [String.singleton_eq_ofList, ← String.ofList_append, List.singleton_append]
    rw [hcons, String.utf8ByteSize_append, String.utf8ByteSize_singleton, ih, byteLength]

/-- The tokens of at most `fuel` pieces of a text that begins at byte `start`. -/
def lexWithin : (fuel start : Nat) → List Char → List Lexeme
  | 0, _, _ => []
  | _, _, [] => []
  | fuel + 1, start, c :: cs =>
    let piece := chunk c cs
    let stop := start + byteLength ((c :: cs).take piece.length)
    let rest := lexWithin fuel stop ((c :: cs).drop piece.length)
    match piece.token with
    | some token => ⟨token, start, stop⟩ :: rest
    | none => rest

/-- The tokens of a text; as every piece takes a character, its length bounds their number. -/
def lex (cs : List Char) : List Lexeme := lexWithin cs.length 0 cs

/-- The tokens of source number `source` and where they stand in it. -/
def locate (source : Nat) (text : String) : List (Token × Loc) :=
  (lex text.toList).map fun l => (l.token, ⟨source, l.start, l.stop⟩)

end FlatScope.Lexer
