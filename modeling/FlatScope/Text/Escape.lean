/-!
# Escapes in string literals

`Escape.decode` reads the characters between the quotes of a literal: `\b \f \n \r \t \' \" \\`, a
code point by four hexadecimal digits (`\u`), by two (`\x`) or by up to three octal ones. Anything
else behind a backslash makes the literal invalid.
-/

namespace FlatScope.Escape

/-- The value of a digit in a base of at most sixteen. -/
def digit? (base : Nat) (c : Char) : Option Nat :=
  let value :=
    if c.isDigit then some (c.toNat - '0'.toNat)
    else if 'a' ≤ c ∧ c ≤ 'f' then some (c.toNat - 'a'.toNat + 10)
    else if 'A' ≤ c ∧ c ≤ 'F' then some (c.toNat - 'A'.toNat + 10)
    else none
  value.filter (· < base)

/-- A natural number in the given base; at least one digit, a plus sign may lead. -/
def number? (base : Nat) (cs : List Char) : Option Nat :=
  let digits := match cs with
    | '+' :: rest => rest
    | _ => cs
  if digits.isEmpty then none
  else digits.foldlM (fun n c => (digit? base c).map (base * n + ·)) 0

/-- The character with this code point; surrogates and points beyond the last have none. -/
def character? (point : Nat) : Option Char :=
  if point.isValidChar then some (Char.ofNat point) else none

def point? (base : Nat) (cs : List Char) : Option Char := (number? base cs).bind character?

/-- The character that a backslash and `c` stand for, of those with a single letter. -/
def simple? : Char → Option Char
  | 'b' => some '\x08'
  | 'f' => some '\x0c'
  | 'n' => some '\n'
  | 'r' => some '\r'
  | 't' => some '\t'
  | '\x27' => some '\x27'
  | '"' => some '"'
  | '\\' => some '\\'
  | _ => none

/--
What stands behind a backslash: the character meant and how many characters spell it. Three octal
digits are taken if the first is at most three and all are octal, else exactly two.
-/
def spelled? (c : Char) (rest : List Char) : Option (Char × Nat) :=
  if c = 'u' then
    if 4 ≤ rest.length then (point? 16 (rest.take 4)).map (·, 5) else none
  else if c = 'x' then
    if 2 ≤ rest.length then (point? 16 (rest.take 2)).map (·, 3) else none
  else if (digit? 8 c).isSome then
    let three := if c ≤ '3' ∧ 2 ≤ rest.length then point? 8 (c :: rest.take 2) else none
    match three with
    | some d => some (d, 3)
    | none => if 1 ≤ rest.length then (point? 8 (c :: rest.take 1)).map (·, 2) else none
  else (simple? c).map (·, 1)

/-- `decode` with a bound on the number of characters read. -/
def decodeWithin : Nat → List Char → Option (List Char)
  | _, [] => some []
  | 0, _ => none
  | fuel + 1, '\\' :: c :: rest => do
    let (d, count) ← spelled? c rest
    return d :: (← decodeWithin fuel (rest.drop (count - 1)))
  | fuel + 1, c :: rest => if c = '\\' then none else (decodeWithin fuel rest).map (c :: ·)

def decode (cs : List Char) : Option (List Char) := decodeWithin cs.length cs

/-- The text that a literal stands for, its quotes included in `raw`. -/
def unquote? (raw : String) : Option String :=
  (decode ((raw.toList.drop 1).dropLast)).map String.ofList

end FlatScope.Escape
