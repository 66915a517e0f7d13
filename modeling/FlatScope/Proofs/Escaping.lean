import FlatScope.Text.Escape

/-!
# Escaping text

`Escape.encode` puts a backslash before every quote and every backslash, and `Escape.decode` takes
them away again (`decode_encode`). So every text has a literal that stands for it
(`unquote?_literal`).
-/

namespace FlatScope.Escape

/-- The text as it stands between the quotes of a literal. -/
def encode (cs : List Char) : List Char :=
  cs.flatMap fun c => if c = '"' ∨ c = '\\' then ['\\', c] else [c]

variable {c : Char}

theorem encode_cons_of_escaped (hc : c = '"' ∨ c = '\\') (cs : List Char) :
    encode (c :: cs) = '\\' :: c :: encode cs := by
  unfold encode
  rw [List.flatMap_cons, if_pos hc]
  rfl

theorem encode_cons_of_plain (hc : ¬ (c = '"' ∨ c = '\\')) (cs : List Char) :
    encode (c :: cs) = c :: encode cs := by
  unfold encode
  rw [List.flatMap_cons, if_neg hc]
  rfl

theorem decodeWithin_escaped (fuel : Nat) (hc : c = '"' ∨ c = '\\') (cs : List Char) :
    decodeWithin (fuel + 1) ('\\' :: c :: cs) = (decodeWithin fuel cs).map (c :: ·) := by
  have hspelled : spelled? c cs = some (c, 1) := by
    rcases hc with rfl | rfl <;> rfl
  rw [decodeWithin, hspelled]
  show (do return c :: (← decodeWithin fuel (cs.drop 0))) = _
  rw [List.drop_zero]
  cases decodeWithin fuel cs <;> rfl

theorem decodeWithin_plain (fuel : Nat) (hc : c ≠ '\\') (cs : List Char) :
    decodeWithin (fuel + 1) (c :: cs) = (decodeWithin fuel cs).map (c :: ·) := by
  rw [decodeWithin]
  · exact if_neg hc
  · exact fun _ _ heq => absurd heq hc

theorem decodeWithin_encode {fuel : Nat} (cs : List Char) (h : (encode cs).length ≤ fuel) :
    decodeWithin fuel (encode cs) = some cs := by
  induction cs generalizing fuel with
  | nil => cases fuel <;> rfl
  | cons c cs ih =>
    by_cases hc : c = '"' ∨ c = '\\'
    · rw [encode_cons_of_escaped hc] at h ⊢
      cases fuel with
      | zero => cases h
      | succ fuel =>
        rw [List.length_cons, List.length_cons] at h
        rw [decodeWithin_escaped fuel hc, ih (by omega)]
        rfl
    · rw [encode_cons_of_plain hc] at h ⊢
      cases fuel with
      | zero => cases h
      | succ fuel =>
        rw [List.length_cons] at h
        rw [decodeWithin_plain fuel fun heq => hc (.inr heq), ih (by omega)]
        rfl

theorem decode_encode (cs : List Char) : decode (encode cs) = some cs :=
  decodeWithin_encode cs (Nat.le_refl _)

/-- The literal that stands for a text. -/
def literal (text : String) : String := String.ofList ('"' :: (encode text.toList ++ ['"']))

/-- What a literal stands for is what is between its quotes. -/
theorem unquote?_quoted (body : List Char) :
    unquote? (String.ofList ('"' :: (body ++ ['"']))) = (decode body).map String.ofList := by
  unfold unquote?
  rw [String.toList_ofList, List.drop_succ_cons, List.drop_zero, List.dropLast_concat]

theorem unquote?_literal (text : String) : unquote? (literal text) = some text := by
  unfold literal
  rw [unquote?_quoted, decode_encode, Option.map_some, String.ofList_toList]

end FlatScope.Escape
