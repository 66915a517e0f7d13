import Mathlib.Data.Nat.Digits.Defs
import FlatScope.Proofs.Patterns

/-!
# The longest match

`chunk` takes as much of a text as any pattern can match (`exists_chunk`), so every token of a text
is the longest match at its place (`readAs_of_mem_locate`).
-/

namespace FlatScope.Lexer

open scoped Computability

variable {c : Char} {cs w word rest : List Char} {pattern : Pattern}

/-! ## What a piece of text is read as -/

/-- `pattern` matches `word`, and with `rest` behind it no pattern matches more. -/
structure Longest (pattern : Pattern) (word rest : List Char) : Prop where
  accepts : word ∈ pattern.language
  longest : ∀ (other : Pattern) (longer : List Char),
    longer ∈ other.language → longer <+: word ++ rest → longer.length ≤ word.length

/-- The number that decimal digits write. -/
def decimal (word : List Char) : Nat :=
  Nat.ofDigits 10 (word.reverse.map fun c => c.toNat - '0'.toNat)

/-- Why `word` is no token when `rest` stands behind it. -/
inductive Unread (word rest : List Char) : Prop where
  | unmatched (h : ∀ (pattern : Pattern) (w : List Char), w ∈ pattern.language → w ≠ [] →
      ¬ w <+: word ++ rest)
  | tooLarge (h : Longest .int word rest) (hlarge : 2 ^ 63 - 1 < decimal word)
  | unclosed (body : List Char) (h : word = '/' :: '*' :: body) (hbody : NoEnd body)
      (hrest : rest = [])

/-- The pattern that a token was matched by. -/
def patternOf : Token → Option Pattern
  | .symbol s => some (.symbol s)
  | .keyword k => some (.keyword k)
  | .int _ => some .int
  | .float _ => some .float
  | .string _ => some .string
  | .identifier _ => some .identifier
  | .invalid => none

/-- `word` is rightly read as `token` when `rest` stands behind it. -/
structure ReadAs (token : Token) (word rest : List Char) : Prop where
  longest : ∀ pattern, patternOf token = some pattern → Longest pattern word rest
  keyword : ∀ k, word = k.text.toList → token = .keyword k
  int : ∀ value, token = .int value → value = decimal word ∧ value ≤ 2 ^ 63 - 1
  invalid : token = .invalid → Unread word rest

def Pattern.Skipped : Pattern → Prop
  | lineComment | blockComment | blanks => True
  | _ => False

/-- What a piece is: a token, or text between tokens. -/
def Reads : Option Token → List Char → List Char → Prop
  | some token, word, rest => ReadAs token word rest
  | none, word, rest => ∃ pattern : Pattern, pattern.Skipped ∧ Longest pattern word rest

/-- `piece` is rightly taken from the front of `cs`. -/
def Takes (cs : List Char) (piece : Chunk) : Prop :=
  ∃ word rest, cs = word ++ rest ∧ piece.length = word.length ∧ word ≠ [] ∧
    Reads piece.token word rest

/-! ## First characters -/

inductive Start where
  | blank | digit | letter | quote | slash | other
deriving DecidableEq

def startOf (c : Char) : Start :=
  if isBlank c then .blank
  else if c.isDigit then .digit
  else if isWordStart c then .letter
  else if c = '"' then .quote
  else if c = '/' then .slash
  else .other

def Pattern.start : Pattern → Start
  | lineComment | blockComment | symbol .slash => .slash
  | blanks => .blank
  | symbol _ => .other
  | keyword _ | identifier => .letter
  | int | float => .digit
  | string => .quote

theorem startOf_of_isBlank (h : isBlank c) : startOf c = .blank := if_pos h

/-- No blank is in a class of characters that the five blanks are not in. -/
theorem isBlank_eq_false {p : Char → Bool} (h : p c)
    (hp : [' ', '\t', '\n', '\x0c', '\r'].any p = false) : isBlank c = false := by
  simp only [List.any_cons, List.any_nil, Bool.or_eq_false_iff] at hp
  simp only [isBlank, Bool.or_eq_false_iff, beq_eq_false_iff_ne]
  refine ⟨⟨⟨⟨?_, ?_⟩, ?_⟩, ?_⟩, ?_⟩ <;> (rintro rfl; simp [hp] at h)

theorem startOf_of_isDigit (h : c.isDigit) : startOf c = .digit := by
  have hblank : isBlank c = false := isBlank_eq_false h rfl
  rw [startOf, hblank, if_neg Bool.false_ne_true, if_pos h]

theorem startOf_of_isWordStart (h : isWordStart c) : startOf c = .letter := by
  have hblank : isBlank c = false := isBlank_eq_false h rfl
  have hdigit : c.isDigit = false := by
    simp only [isWordStart, Bool.or_eq_true, beq_iff_eq] at h
    rcases h with h | rfl
    · delta Char.isAlpha Char.isUpper Char.isLower at h
      simp only [Char.isDigit, Bool.or_eq_true, Bool.and_eq_true, decide_eq_true_eq,
        Bool.and_eq_false_iff, decide_eq_false_iff_not, ge_iff_le, UInt32.le_iff_toNat_le] at h ⊢
      have : 'A'.val.toNat = 65 := rfl
      have : 'a'.val.toNat = 97 := rfl
      have : '9'.val.toNat = 57 := rfl
      omega
    · rfl
  rw [startOf, hblank, hdigit, if_neg Bool.false_ne_true, if_neg Bool.false_ne_true, if_pos h]

theorem Pattern.exists_head (h : w ∈ pattern.language) :
    ∃ c v, w = c :: v ∧ startOf c = pattern.start := by
  cases pattern with
  | lineComment =>
    obtain ⟨v, -, rfl⟩ := mem_exactly_mul.mp h
    exact ⟨_, _, rfl, rfl⟩
  | blockComment =>
    obtain ⟨body, rfl, -⟩ := mem_blockComment_iff.mp h
    exact ⟨_, _, rfl, rfl⟩
  | blanks =>
    obtain ⟨hne, hall⟩ := mem_oneOrMore_one.mp h
    obtain ⟨c, v, rfl⟩ := List.exists_cons_of_ne_nil hne
    refine ⟨c, v, rfl, startOf_of_isBlank ?_⟩
    have hc := hall c List.mem_cons_self
    simp only [decide_eq_true_eq, List.mem_cons, List.not_mem_nil, or_false] at hc
    rcases hc with rfl | rfl | rfl | rfl | rfl <;> rfl
  | symbol s =>
    cases mem_exactly.mp h
    cases s <;> exact ⟨_, _, rfl, rfl⟩
  | keyword k =>
    cases mem_exactly.mp h
    cases k <;> exact ⟨_, _, rfl, rfl⟩
  | int =>
    obtain ⟨hne, hall⟩ := mem_digits.mp h
    obtain ⟨c, v, rfl⟩ := List.exists_cons_of_ne_nil hne
    exact ⟨c, v, rfl, startOf_of_isDigit (hall c List.mem_cons_self)⟩
  | float =>
    obtain ⟨whole, fraction, tail, rfl, hwhole, -⟩ := mem_float_iff.mp h
    obtain ⟨hne, hall⟩ := mem_digits.mp hwhole
    obtain ⟨c, v, rfl⟩ := List.exists_cons_of_ne_nil hne
    exact ⟨c, _, rfl, startOf_of_isDigit (hall c List.mem_cons_self)⟩
  | string =>
    obtain ⟨body, -, rfl⟩ := mem_string_iff.mp h
    exact ⟨_, _, rfl, rfl⟩
  | identifier =>
    obtain ⟨c, v, rfl, hc, -⟩ := mem_identifier_iff.mp h
    exact ⟨c, v, rfl, startOf_of_isWordStart hc⟩

theorem Pattern.start_eq_of_mem (h : w ∈ pattern.language) (hpre : w <+: c :: cs) :
    pattern.start = startOf c := by
  obtain ⟨d, v, rfl, hstart⟩ := exists_head h
  rw [← hstart, (List.cons_prefix_cons.mp hpre).1]

theorem Pattern.eq_of_start_blank (h : pattern.start = .blank) : pattern = .blanks := by
  cases pattern with
  | symbol s => cases s <;> cases h
  | blanks => rfl
  | _ => cases h

theorem Pattern.eq_of_start_digit (h : pattern.start = .digit) :
    pattern = .int ∨ pattern = .float := by
  cases pattern with
  | symbol s => cases s <;> cases h
  | int => exact .inl rfl
  | float => exact .inr rfl
  | _ => cases h

theorem Pattern.eq_of_start_letter (h : pattern.start = .letter) :
    (∃ k, pattern = .keyword k) ∨ pattern = .identifier := by
  cases pattern with
  | symbol s => cases s <;> cases h
  | keyword k => exact .inl ⟨k, rfl⟩
  | identifier => exact .inr rfl
  | _ => cases h

theorem Pattern.eq_of_start_quote (h : pattern.start = .quote) : pattern = .string := by
  cases pattern with
  | symbol s => cases s <;> cases h
  | string => rfl
  | _ => cases h

theorem Pattern.eq_of_start_slash (h : pattern.start = .slash) :
    pattern = .lineComment ∨ pattern = .blockComment ∨ pattern = .symbol .slash := by
  cases pattern with
  | symbol s => cases s <;> first | exact .inr (.inr rfl) | cases h
  | lineComment => exact .inl rfl
  | blockComment => exact .inr (.inl rfl)
  | _ => cases h

theorem Pattern.eq_of_start_other (h : pattern.start = .other) : ∃ s, pattern = .symbol s := by
  cases pattern with
  | symbol s => exact ⟨s, rfl⟩
  | _ => cases h

/-- Only patterns that begin alike compete. -/
theorem Longest.of_start (haccepts : word ∈ pattern.language)
    (hlongest : ∀ (other : Pattern) (longer : List Char), other.start = pattern.start →
      longer ∈ other.language → longer <+: word ++ rest → longer.length ≤ word.length) :
    Longest pattern word rest := by
  refine ⟨haccepts, fun other longer hother hpre => hlongest other longer ?_ hother hpre⟩
  obtain ⟨c, v, rfl, hstart⟩ := Pattern.exists_head haccepts
  rw [Pattern.start_eq_of_mem hother hpre, hstart]

theorem Unread.of_start (h : ∀ (pattern : Pattern) (w : List Char), pattern.start = startOf c →
    w ∈ pattern.language → ¬ w <+: c :: cs) (hsplit : c :: cs = word ++ rest) :
    Unread word rest := by
  refine .unmatched fun pattern w hw _ hpre => ?_
  rw [← hsplit] at hpre
  exact h pattern w (Pattern.start_eq_of_mem hw hpre) hw hpre

/-- Only text that begins like a word is a keyword. -/
theorem ne_keyword (hc : startOf c ≠ .letter) (hsplit : c :: cs = word ++ rest) (k : Keyword) :
    word ≠ k.text.toList := by
  intro hword
  have hmem : word ∈ (Pattern.keyword k).language := mem_exactly.mpr hword
  exact hc (Pattern.start_eq_of_mem hmem (hsplit ▸ List.prefix_append word rest)).symm

/-! ## Numbers -/

theorem digitsValue_eq (word : List Char) : Binary64.digitsValue word = decimal word := by
  induction word using List.reverseRecOn with
  | nil => rfl
  | append_singleton word c ih =>
    rw [Binary64.digitsValue, List.foldl_concat, ← Binary64.digitsValue, ih, decimal, decimal,
      List.reverse_concat, List.map_cons, Nat.ofDigits_cons, Nat.add_comm]

/-- The sign that may stand before the digits of an exponent. -/
structure Signed (sign rest : List Char) : Prop where
  spelled : sign = [] ∨ sign = ['+'] ∨ sign = ['-']
  alone : sign = [] → ∀ c, rest.head? = some c → c ≠ '+' ∧ c ≠ '-'

theorem exists_sign (cs : List Char) : ∃ sign rest, cs = sign ++ rest ∧ Signed sign rest := by
  cases cs with
  | nil => exact ⟨[], [], rfl, .inl rfl, fun _ c hc => by cases hc⟩
  | cons c cs =>
    by_cases hplus : c = '+'
    · exact ⟨['+'], cs, by rw [hplus]; rfl, .inr (.inl rfl), fun h => by cases h⟩
    by_cases hminus : c = '-'
    · exact ⟨['-'], cs, by rw [hminus]; rfl, .inr (.inr rfl), fun h => by cases h⟩
    refine ⟨[], c :: cs, rfl, .inl rfl, fun _ d hd => ?_⟩
    cases hd
    exact ⟨hplus, hminus⟩

/-- Signed digits have the sign that is there. -/
theorem Signed.unique {sign sign' ds : List Char} (h : Signed sign rest)
    (hsign' : sign' = [] ∨ sign' = ['+'] ∨ sign' = ['-']) (hds : ds ∈ digits)
    (hpre : sign' ++ ds <+: sign ++ rest) : sign' = sign ∧ ds <+: rest := by
  obtain ⟨hne, hall⟩ := mem_digits.mp hds
  obtain ⟨d, ds, rfl⟩ := List.exists_cons_of_ne_nil hne
  have hd : d ≠ '+' ∧ d ≠ '-' := by
    constructor <;> (rintro rfl; exact absurd (hall _ List.mem_cons_self) (by decide))
  rcases h.spelled with rfl | rfl | rfl
  · have hrest := h.alone rfl
    rcases hsign' with rfl | rfl | rfl
    · exact ⟨rfl, hpre⟩
    · obtain ⟨after, rfl⟩ := hpre
      exact absurd rfl (hrest '+' rfl).1
    · obtain ⟨after, rfl⟩ := hpre
      exact absurd rfl (hrest '-' rfl).2
  all_goals
    rcases hsign' with rfl | rfl | rfl
    all_goals
      obtain ⟨hhead, htail⟩ := List.cons_prefix_cons.mp hpre
      first
      | exact ⟨rfl, htail⟩
      | exact absurd hhead (by decide)
      | exact absurd hhead hd.1
      | exact absurd hhead hd.2

theorem exponentLength_cons {e : Char} {sign : List Char} (he : e = 'e' ∨ e = 'E')
    (h : Signed sign rest) : exponentLength (e :: (sign ++ rest)) =
      if runLength Char.isDigit rest = 0 then 0
      else 1 + sign.length + runLength Char.isDigit rest := by
  refine (if_pos he).trans ?_
  rcases h.spelled with rfl | rfl | rfl
  · have hrest := h.alone rfl
    rw [List.nil_append]
    split
    · exact absurd rfl (hrest '+' rfl).1
    · exact absurd rfl (hrest '-' rfl).2
    · rfl
  all_goals rfl

/-- The exponent at the front of a text is as long as any. -/
theorem exists_exponent (cs : List Char) : ∃ tail rest, cs = tail ++ rest ∧
    exponentLength cs = tail.length ∧ tail ∈ optionally exponent ∧
    ∀ w ∈ optionally exponent, w <+: cs → w.length ≤ tail.length := by
  have hnone (hlength : exponentLength cs = 0) (h : ∀ w ∈ exponent, ¬ w <+: cs) :
      ∃ tail rest, cs = tail ++ rest ∧ exponentLength cs = tail.length ∧
        tail ∈ optionally exponent ∧
        ∀ w ∈ optionally exponent, w <+: cs → w.length ≤ tail.length := by
    refine ⟨[], cs, rfl, hlength, .inl rfl, fun w hw hpre => ?_⟩
    rcases mem_optionally.mp hw with rfl | hw
    · exact Nat.le_refl _
    · exact absurd hpre (h w hw)
  cases cs with
  | nil =>
    refine hnone rfl fun w hw hpre => ?_
    obtain ⟨e, sign, ds, rfl, -⟩ := mem_exponent_iff.mp hw
    cases List.prefix_nil.mp hpre
  | cons e cs =>
    by_cases he : e = 'e' ∨ e = 'E'
    · obtain ⟨sign, later, rfl, hsign⟩ := exists_sign cs
      obtain ⟨front, rest, rfl, hlength, hrun⟩ := exists_run Char.isDigit later
      have hcons := exponentLength_cons he hsign
      rw [hlength] at hcons
      -- what matches has the sign that is there and digits out of the run
      have hmatch : ∀ w ∈ exponent, w <+: e :: (sign ++ (front ++ rest)) →
          ∃ ds : List Char, w.length = 1 + sign.length + ds.length ∧ ds ≠ [] ∧
            ds.length ≤ front.length := by
        intro w hw hpre
        obtain ⟨e', sign', ds, rfl, -, hsign', hds⟩ := mem_exponent_iff.mp hw
        obtain ⟨rfl, hds'⟩ := hsign.unique hsign' hds (List.cons_prefix_cons.mp hpre).2
        obtain ⟨hne, hall⟩ := mem_digits.mp hds
        refine ⟨ds, ?_, hne, hrun.length_le hall hds'⟩
        rw [List.length_cons, List.length_append]
        omega
      by_cases hfront : front.length = 0
      · refine hnone (hcons.trans (if_pos hfront)) fun w hw hpre => ?_
        obtain ⟨ds, -, hne, hle⟩ := hmatch w hw hpre
        exact hne (List.length_eq_zero_iff.mp (by omega))
      · refine ⟨e :: (sign ++ front), rest, by simp, ?_, .inr ?_, fun w hw hpre => ?_⟩
        · rw [hcons, if_neg hfront, List.length_cons, List.length_append]
          omega
        · exact mem_exponent_iff.mpr ⟨e, sign, front, rfl, he, hsign.spelled,
            mem_digits.mpr ⟨fun h => hfront (by rw [h]; rfl), hrun.all⟩⟩
        · rcases mem_optionally.mp hw with rfl | hw
          · exact Nat.zero_le _
          · obtain ⟨ds, hlength, -, hle⟩ := hmatch w hw hpre
            rw [hlength, List.length_cons, List.length_append]
            omega
    · refine hnone (if_neg he) fun w hw hpre => ?_
      obtain ⟨e', sign, ds, rfl, he', -⟩ := mem_exponent_iff.mp hw
      exact he ((List.cons_prefix_cons.mp hpre).1 ▸ he')

/-- The point and the digits at the front of a text, or why they are not both there. -/
theorem exists_fraction (cs : List Char) :
    (fractionLength cs = 0 ∧ ∀ ds ∈ digits, ¬ '.' :: ds <+: cs) ∨
      ∃ front rest, cs = '.' :: (front ++ rest) ∧ fractionLength cs = 1 + front.length ∧
        front ∈ digits ∧ Run Char.isDigit front rest := by
  unfold fractionLength
  split
  · next cs =>
    obtain ⟨front, rest, rfl, hlength, hrun⟩ := exists_run Char.isDigit cs
    dsimp only
    rw [hlength]
    by_cases hfront : front = []
    · subst hfront
      refine .inl ⟨rfl, fun ds hds hpre => ?_⟩
      obtain ⟨hne, hall⟩ := mem_digits.mp hds
      have hle := hrun.length_le hall (List.cons_prefix_cons.mp hpre).2
      exact hne (List.length_eq_zero_iff.mp (Nat.le_zero.mp hle))
    · exact .inr ⟨front, rest, rfl, if_neg (mt List.length_eq_zero_iff.mp hfront),
        mem_digits.mpr ⟨hfront, hrun.all⟩, hrun⟩
  · next hother =>
    refine .inl ⟨rfl, fun ds hds hpre => ?_⟩
    obtain ⟨after, rfl⟩ := hpre
    exact hother _ rfl

/-- A number in front of a text begins with the digits that are there. -/
theorem whole_unique {front rest whole after : List Char} (hrun : Run Char.isDigit front rest)
    (hwhole : whole ∈ digits) (hpre : whole ++ '.' :: after <+: front ++ rest) :
    whole = front ∧ '.' :: after <+: rest := by
  obtain ⟨t, ht⟩ := hpre
  have hrun' : Run Char.isDigit whole ('.' :: (after ++ t)) :=
    ⟨(mem_digits.mp hwhole).2, fun c hc => by cases hc; rfl⟩
  obtain ⟨rfl, rfl⟩ := hrun'.unique hrun (by simpa using ht)
  exact ⟨rfl, t, rfl⟩

theorem longest_int {front rest : List Char} (hfront : front ∈ digits)
    (hrun : Run Char.isDigit front rest) (hno : ∀ ds ∈ digits, ¬ '.' :: ds <+: rest) :
    Longest .int front rest := by
  refine .of_start hfront fun other longer hstart hlonger hpre => ?_
  rcases Pattern.eq_of_start_digit hstart with rfl | rfl
  · exact hrun.length_le (mem_digits.mp hlonger).2 hpre
  · obtain ⟨whole, fraction, tail, rfl, hwhole, hfraction, -⟩ := mem_float_iff.mp hlonger
    have hpoint := (whole_unique hrun hwhole hpre).2
    exact absurd ((List.prefix_append ('.' :: fraction) tail).trans hpoint) (hno _ hfraction)

theorem longest_float {front ds tail rest : List Char} (hfront : front ∈ digits)
    (hrun : Run Char.isDigit front ('.' :: (ds ++ (tail ++ rest)))) (hds : ds ∈ digits)
    (hrun' : Run Char.isDigit ds (tail ++ rest)) (htail : tail ∈ optionally exponent)
    (hlongest : ∀ w ∈ optionally exponent, w <+: tail ++ rest → w.length ≤ tail.length) :
    Longest .float (front ++ '.' :: (ds ++ tail)) rest := by
  refine .of_start (mem_float_iff.mpr ⟨front, ds, tail, rfl, hfront, hds, htail⟩)
    fun other longer hstart hlonger hpre => ?_
  have hpre : longer <+: front ++ '.' :: (ds ++ (tail ++ rest)) := by simpa using hpre
  rcases Pattern.eq_of_start_digit hstart with rfl | rfl
  · have hle := hrun.length_le (mem_digits.mp hlonger).2 hpre
    rw [List.length_append]
    omega
  · obtain ⟨whole, fraction, tail', rfl, hwhole, hfraction, htail'⟩ := mem_float_iff.mp hlonger
    obtain ⟨rfl, hpoint⟩ := whole_unique hrun hwhole hpre
    have hpre := (List.cons_prefix_cons.mp hpoint).2
    have hle : (fraction ++ tail').length ≤ (ds ++ tail).length := by
      have hall := (mem_digits.mp hfraction).2
      rcases mem_optionally.mp htail' with rfl | hexponent
      · have := hrun'.length_le hall (by simpa using hpre)
        rw [List.append_nil, List.length_append]
        omega
      · -- an exponent does not begin with a digit, so both fractions are the whole run
        obtain ⟨t, ht⟩ := hpre
        have hrun'' : Run Char.isDigit fraction (tail' ++ t) := by
          refine ⟨hall, fun c hc => ?_⟩
          obtain ⟨e, sign, digits, rfl, he, -⟩ := mem_exponent_iff.mp hexponent
          cases hc
          rcases he with rfl | rfl <;> rfl
        obtain ⟨rfl, hlater⟩ := hrun''.unique hrun' (by simpa using ht)
        have := hlongest tail' htail' ⟨t, hlater⟩
        rw [List.length_append, List.length_append]
        omega
    rw [List.length_append, List.length_append, List.length_cons, List.length_cons]
    omega

theorem takes_number (hc : c.isDigit) : Takes (c :: cs) (number (c :: cs)) := by
  obtain ⟨front, rest, hsplit, hlength, hrun⟩ := exists_run Char.isDigit (c :: cs)
  have hfront : front ∈ digits := by
    refine mem_digits.mpr ⟨?_, hrun.all⟩
    rintro rfl
    rw [List.nil_append] at hsplit
    exact absurd hc (by rw [hrun.stops c (by rw [← hsplit]; rfl)]; exact Bool.false_ne_true)
  have hne := (mem_digits.mp hfront).1
  have hkeyword {word rest : List Char} (h : c :: cs = word ++ rest) (k : Keyword) :
      word ≠ k.text.toList := ne_keyword (by rw [startOf_of_isDigit hc]; decide) h k
  have htake : (c :: cs).take front.length = front := by rw [hsplit, List.take_left]
  have hdrop : (c :: cs).drop front.length = rest := by rw [hsplit, List.drop_left]
  unfold number
  simp only [hlength, htake, hdrop]
  rcases exists_fraction rest with ⟨hzero, hno⟩ | ⟨ds, later, rfl, hfraction, hds, hrun'⟩
  · rw [if_pos hzero]
    refine ⟨front, rest, hsplit, rfl, hne, ?_⟩
    have hlongest := longest_int hfront hrun hno
    rw [digitsValue_eq]
    by_cases hvalue : decimal front ≤ maxInt
    · rw [if_pos hvalue]
      refine ⟨fun pattern h => ?_, fun k hk => absurd hk (hkeyword hsplit k), fun value h => ?_,
        fun h => by cases h⟩
      · cases h
        exact hlongest
      · cases h
        exact ⟨rfl, hvalue⟩
    · rw [if_neg hvalue]
      exact ⟨fun pattern h => (by cases h), fun k hk => absurd hk (hkeyword hsplit k),
        fun value h => (by cases h), fun _ => .tooLarge hlongest (Nat.lt_of_not_le hvalue)⟩
  · obtain ⟨tail, rest, rfl, hexponent, htail, hlongest⟩ := exists_exponent later
    have hdrop' : (c :: cs).drop (front.length + (1 + ds.length)) = tail ++ rest := by
      rw [← List.drop_drop, hdrop, Nat.add_comm 1, List.drop_succ_cons, List.drop_left]
    simp only [hfraction, hdrop', hexponent]
    rw [if_neg (by omega)]
    have hsplit : c :: cs = front ++ '.' :: (ds ++ tail) ++ rest := by simpa using hsplit
    refine ⟨front ++ '.' :: (ds ++ tail), rest, hsplit, ?_, by simp, fun pattern h => ?_,
      fun k hk => absurd hk (hkeyword hsplit k), fun value h => (by cases h),
      fun h => (by cases h)⟩
    · simp only [List.length_append, List.length_cons]
      omega
    · cases h
      exact longest_float hfront hrun hds hrun' htail hlongest

/-! ## Blank space and words -/

theorem takes_blanks (hc : isBlank c) : Takes (c :: cs) ⟨none, runLength isBlank cs + 1⟩ := by
  obtain ⟨front, rest, rfl, hlength, hrun⟩ := exists_run isBlank cs
  have hall : ∀ d ∈ c :: front, isBlank d := List.forall_mem_cons.mpr ⟨hc, hrun.all⟩
  have hmem {w : List Char} : w ∈ Pattern.blanks.language ↔ w ≠ [] ∧ ∀ d ∈ w, isBlank d := by
    rw [Pattern.language, mem_oneOrMore_one]
    simp [isBlank, or_assoc]
  refine ⟨c :: front, rest, rfl, by rw [hlength, List.length_cons], List.cons_ne_nil _ _,
    .blanks, trivial, .of_start (hmem.mpr ⟨List.cons_ne_nil _ _, hall⟩) ?_⟩
  intro other longer hstart hlonger hpre
  cases Pattern.eq_of_start_blank hstart
  exact Run.length_le ⟨hall, hrun.stops⟩ (hmem.mp hlonger).2 hpre

theorem isWordPart_of_isWordStart (h : isWordStart c) : isWordPart c := by
  simp only [isWordStart, isWordPart, Char.isAlphanum, Bool.or_eq_true] at h ⊢
  exact h.imp_left .inl

/-- An identifier is letters, digits and underscores. -/
theorem isWordPart_of_mem_identifier (h : w ∈ Pattern.identifier.language) :
    ∀ d ∈ w, isWordPart d := by
  obtain ⟨c, v, rfl, hc, hv⟩ := mem_identifier_iff.mp h
  exact List.forall_mem_cons.mpr ⟨isWordPart_of_isWordStart hc, hv⟩

theorem Keyword.isWordPart (k : Keyword) : ∀ c ∈ k.text.toList, isWordPart c :=
  List.all_eq_true.mp (by cases k <;> rfl)

theorem Keyword.ofText?_text (k : Keyword) : Keyword.ofText? k.text = some k := by
  cases k <;> decide

theorem takes_word (hc : isWordStart c) : Takes (c :: cs) (Lexer.word (c :: cs)) := by
  obtain ⟨front, rest, rfl, hlength, hrun⟩ := exists_run isWordPart cs
  have hpart := isWordPart_of_isWordStart hc
  have hrun : Run isWordPart (c :: front) rest :=
    ⟨List.forall_mem_cons.mpr ⟨hpart, hrun.all⟩, hrun.stops⟩
  have hlength : runLength isWordPart (c :: (front ++ rest)) = (c :: front).length := by
    rw [runLength, ← List.cons_append, hrun.takeWhile]
  have htake : (c :: (front ++ rest)).take (c :: front).length = c :: front := List.take_left
  have hidentifier : c :: front ∈ Pattern.identifier.language :=
    mem_identifier_iff.mpr ⟨c, front, rfl, hc, fun d hd => hrun.all d (List.mem_cons_of_mem c hd)⟩
  -- keywords are identifiers as far as their length goes
  have hlongest {pattern : Pattern} (hstart : pattern.start = .letter)
      (haccepts : c :: front ∈ pattern.language) : Longest pattern (c :: front) rest := by
    refine .of_start haccepts fun other longer hother hlonger hpre => ?_
    refine hrun.length_le ?_ hpre
    rcases Pattern.eq_of_start_letter (hother.trans hstart) with ⟨k, rfl⟩ | rfl
    · rw [mem_exactly.mp hlonger]
      exact Keyword.isWordPart k
    · exact isWordPart_of_mem_identifier hlonger
  have hkeyword (k : Keyword) (hk : c :: front = k.text.toList) :
      Keyword.ofText? (String.ofList (c :: front)) = some k := by
    rw [hk, String.ofList_toList, Keyword.ofText?_text]
  unfold Lexer.word
  simp only [hlength, htake]
  split
  · next k hk =>
    have htext : c :: front = k.text.toList := by
      have := List.find?_some hk
      rw [beq_iff_eq.mp this, String.toList_ofList]
    refine ⟨c :: front, rest, rfl, rfl, List.cons_ne_nil _ _, fun pattern h => ?_,
      fun k' hk' => ?_, fun value h => (by cases h), fun h => (by cases h)⟩
    · cases h
      exact hlongest rfl (mem_exactly.mpr htext)
    · rw [Option.some.inj (hk.symm.trans (hkeyword k' hk'))]
  · next hnone =>
    refine ⟨c :: front, rest, rfl, rfl, List.cons_ne_nil _ _, fun pattern h => ?_,
      fun k hk => ?_, fun value h => (by cases h), fun h => (by cases h)⟩
    · cases h
      exact hlongest rfl hidentifier
    · cases hnone.symm.trans (hkeyword k hk)

/-! ## String literals -/

theorem stringEnd_escape (cs : List Char) (hc : c ≠ '\n') :
    stringEnd ('\\' :: c :: cs) = (stringEnd cs).later 2 := by
  rw [stringEnd, if_neg hc]

theorem stringEnd_plain (cs : List Char) (hslash : c ≠ '\\') (hquote : c ≠ '"') :
    stringEnd (c :: cs) = (stringEnd cs).later 1 := by
  rw [stringEnd]
  · exact fun h => absurd h hslash
  · exact fun _ _ h => absurd h hslash
  · exact hquote

/-- A quote behind characters that belong to a literal closes it. -/
theorem stringEnd_append {body : List Char} (hbody : body ∈ stringItem∗) (rest : List Char) :
    stringEnd (body ++ '"' :: rest) = .closed (body.length + 1) := by
  obtain ⟨items, rfl, hitems⟩ := Language.mem_kstar.mp hbody
  clear hbody
  induction items with
  | nil => rfl
  | cons item items ih =>
    obtain ⟨hitem, hlater⟩ := List.forall_mem_cons.mp hitems
    replace ih := ih hlater
    rw [List.flatten_cons, List.append_assoc]
    rcases (Language.mem_add _ _ _).mp hitem with hitem | ⟨c, hc, rfl⟩
    · obtain ⟨_, ⟨c, hc, rfl⟩, rfl⟩ := mem_exactly_mul.mp hitem
      have hstep := stringEnd_escape (items.flatten ++ '"' :: rest) (bne_iff_ne.mp hc)
      simp only [List.cons_append, List.nil_append, hstep, ih, StringEnd.later, List.length_cons]
    · obtain ⟨hslash, hquote⟩ : c ≠ '\\' ∧ c ≠ '"' := by simpa using hc
      have hstep := stringEnd_plain (items.flatten ++ '"' :: rest) hslash hquote
      simp only [List.cons_append, List.nil_append, hstep, ih, StringEnd.later, List.length_cons]

theorem exists_of_stringEnd_closed {n : Nat} (h : stringEnd cs = .closed n) :
    ∃ body rest, cs = body ++ '"' :: rest ∧ n = body.length + 1 ∧ body ∈ stringItem∗ := by
  fun_induction stringEnd cs generalizing n with
  | case1 | case2 | case3 => cases h
  | case4 c cs hc ih =>
    cases hcs : stringEnd cs with
    | unclosed m => rw [hcs] at h; cases h
    | closed m =>
      rw [hcs] at h
      cases h
      obtain ⟨body, rest, rfl, rfl, hbody⟩ := ih hcs
      have hitem : ['\\', c] ∈ stringItem :=
        .inl (mem_exactly_mul.mpr ⟨[c], ⟨c, bne_iff_ne.mpr hc, rfl⟩, rfl⟩)
      exact ⟨'\\' :: c :: body, rest, rfl, rfl, append_mem_kstar hitem hbody⟩
  | case5 rest =>
    cases h
    exact ⟨[], rest, rfl, rfl, Language.nil_mem_kstar _⟩
  | case6 c cs hlast hescape hquote ih =>
    cases hcs : stringEnd cs with
    | unclosed m => rw [hcs] at h; cases h
    | closed m =>
      rw [hcs] at h
      cases h
      obtain ⟨body, rest, rfl, rfl, hbody⟩ := ih hcs
      -- a backslash would take the next character with it
      have hslash : c ≠ '\\' := by
        intro hc
        cases body with
        | nil => exact hescape _ _ hc rfl
        | cons d body => exact hescape _ _ hc rfl
      have hitem : [c] ∈ stringItem := .inr ⟨c, by simpa using ⟨hslash, hquote⟩, rfl⟩
      exact ⟨c :: body, rest, rfl, rfl, append_mem_kstar hitem hbody⟩

theorem le_of_stringEnd_unclosed {n : Nat} (h : stringEnd cs = .unclosed n) : n ≤ cs.length := by
  fun_induction stringEnd cs generalizing n with
  | case1 | case2 | case3 =>
    cases h
    exact Nat.zero_le _
  | case4 c cs _ ih =>
    cases hcs : stringEnd cs with
    | closed m => rw [hcs] at h; cases h
    | unclosed m =>
      rw [hcs] at h
      cases h
      exact Nat.add_le_add_right (ih hcs) 2
  | case5 => cases h
  | case6 c cs _ _ _ ih =>
    cases hcs : stringEnd cs with
    | closed m => rw [hcs] at h; cases h
    | unclosed m =>
      rw [hcs] at h
      cases h
      exact Nat.succ_le_succ (ih hcs)

/-- What a string literal in front of a text is. -/
theorem stringEnd_eq_of_mem (hw : w ∈ Pattern.string.language) (hpre : w <+: '"' :: cs) :
    stringEnd cs = .closed (w.length - 1) := by
  obtain ⟨body, hbody, rfl⟩ := mem_string_iff.mp hw
  obtain ⟨rest, hrest⟩ := (List.cons_prefix_cons.mp hpre).2
  rw [← hrest, List.append_assoc]
  simpa using stringEnd_append hbody rest

theorem takes_stringLiteral : Takes ('"' :: cs) (stringLiteral cs) := by
  have hkeyword {word rest : List Char} (h : '"' :: cs = word ++ rest) (k : Keyword) :
      word ≠ k.text.toList := ne_keyword (by decide) h k
  unfold stringLiteral
  split
  · next n hn =>
    obtain ⟨body, rest, rfl, rfl, hbody⟩ := exists_of_stringEnd_closed hn
    have hsplit : '"' :: (body ++ '"' :: rest) = '"' :: (body ++ ['"']) ++ rest := by simp
    refine ⟨'"' :: (body ++ ['"']), rest, hsplit, by simp, List.cons_ne_nil _ _,
      fun pattern h => ?_, fun k hk => absurd hk (hkeyword hsplit k), fun value h => (by cases h),
      fun h => (by cases h)⟩
    cases h
    refine .of_start (mem_string_iff.mpr ⟨body, hbody, rfl⟩) fun other longer hstart hl hpre => ?_
    cases Pattern.eq_of_start_quote hstart
    -- there is one closing quote only
    have := hn.symm.trans (stringEnd_eq_of_mem hl (hsplit ▸ hpre))
    have hlength := StringEnd.closed.inj this
    simp only [List.length_cons, List.length_append, List.length_nil]
    omega
  · next n hn =>
    have hle := le_of_stringEnd_unclosed hn
    have hsplit : '"' :: cs = '"' :: cs.take n ++ cs.drop n := by
      rw [List.cons_append, List.take_append_drop]
    refine ⟨'"' :: cs.take n, cs.drop n, hsplit, by simp [hle], List.cons_ne_nil _ _,
      fun pattern h => (by cases h), fun k hk => absurd hk (hkeyword hsplit k),
      fun value h => (by cases h), fun _ => .of_start (fun pattern w hstart hw hpre => ?_) hsplit⟩
    cases Pattern.eq_of_start_quote hstart
    cases hn.symm.trans (stringEnd_eq_of_mem hw hpre)

/-! ## Comments -/

/-- The first `*/` is the one that is found. -/
theorem commentLength?_append {body : List Char} (h : NoEnd (body ++ ['*'])) (rest : List Char) :
    commentLength? (body ++ '*' :: '/' :: rest) = some (body.length + 2) := by
  induction body with
  | nil => rfl
  | cons c body ih =>
    have hlater : NoEnd (body ++ ['*']) := h.mono (List.suffix_cons c _).isInfix
    rw [List.cons_append, commentLength?, ih hlater]
    · rfl
    · rintro after rfl hafter
      cases body with
      | nil => cases hafter
      | cons d body =>
        cases hafter
        exact h ⟨[], body ++ ['*'], rfl⟩

theorem exists_of_commentLength?_eq_some {n : Nat} (h : commentLength? cs = some n) :
    ∃ body rest, cs = body ++ '*' :: '/' :: rest ∧ n = body.length + 2 ∧
      NoEnd (body ++ ['*']) := by
  fun_induction commentLength? cs generalizing n with
  | case1 rest =>
    cases h
    exact ⟨[], rest, rfl, rfl, noEnd_of_forall_eq fun c hc => List.mem_singleton.mp hc⟩
  | case2 c cs hother ih =>
    obtain ⟨m, hm, rfl⟩ := Option.map_eq_some_iff.mp h
    obtain ⟨body, rest, rfl, rfl, hbody⟩ := ih hm
    refine ⟨c :: body, rest, rfl, rfl, hbody.cons fun hc hhead => ?_⟩
    cases body with
    | nil => cases hhead
    | cons d body =>
      cases hhead
      exact hother _ hc rfl
  | case3 => cases h

theorem noEnd_of_commentLength?_eq_none (h : commentLength? cs = none) : NoEnd cs := by
  fun_induction commentLength? cs with
  | case1 => cases h
  | case2 c cs hother ih =>
    refine (ih (Option.map_eq_none_iff.mp h)).cons fun hc hhead => ?_
    obtain ⟨after, rfl⟩ := List.head?_eq_some_iff.mp hhead
    exact hother after hc rfl
  | case3 => exact noEnd_of_forall_ne fun c hc => by cases hc

/-- What a block comment in front of a text is. -/
theorem commentLength?_eq_of_mem (hw : w ∈ Pattern.blockComment.language)
    (hpre : w <+: '/' :: '*' :: cs) : commentLength? cs = some (w.length - 2) := by
  obtain ⟨body, rfl, hbody⟩ := mem_blockComment_iff.mp hw
  rw [List.append_assoc] at hpre
  obtain ⟨rest, hrest⟩ := (List.prefix_append_right_inj ['/', '*']).mp hpre
  rw [← hrest, List.append_assoc]
  simpa using commentLength?_append hbody rest

theorem takes_lineComment :
    Takes ('/' :: '/' :: cs) ⟨none, runLength (· != '\n') cs + 2⟩ := by
  obtain ⟨front, rest, rfl, hlength, hrun⟩ := exists_run (· != '\n') cs
  refine ⟨'/' :: '/' :: front, rest, rfl, by simp [hlength], List.cons_ne_nil _ _, .lineComment,
    trivial, .of_start (mem_lineComment_iff.mpr ⟨front, rfl, ?_⟩) ?_⟩
  · exact fun c hc => bne_iff_ne.mp (hrun.all c hc)
  intro other longer hstart hlonger hpre
  rcases Pattern.eq_of_start_slash hstart with rfl | rfl | rfl
  · obtain ⟨body, rfl, hbody⟩ := mem_lineComment_iff.mp hlonger
    have hpre := (List.prefix_append_right_inj ['/', '/']).mp hpre
    have hle := hrun.length_le (fun c hc => bne_iff_ne.mpr (hbody c hc)) hpre
    exact Nat.add_le_add_right hle 2
  · obtain ⟨body, rfl, -⟩ := mem_blockComment_iff.mp hlonger
    obtain ⟨_, hrest⟩ := hpre
    cases hrest
  · cases mem_exactly.mp hlonger
    exact Nat.succ_le_succ (Nat.zero_le _)

theorem takes_blockComment {n : Nat} (h : commentLength? cs = some n) :
    Takes ('/' :: '*' :: cs) ⟨none, n + 2⟩ := by
  obtain ⟨body, rest, rfl, rfl, hbody⟩ := exists_of_commentLength?_eq_some h
  have hsplit : '/' :: '*' :: (body ++ '*' :: '/' :: rest) =
      ['/', '*'] ++ body ++ ['*', '/'] ++ rest := by simp
  refine ⟨_, rest, hsplit, by simp, by simp, .blockComment, trivial,
    .of_start (mem_blockComment_iff.mpr ⟨body, rfl, hbody⟩) ?_⟩
  intro other longer hstart hlonger hpre
  rcases Pattern.eq_of_start_slash hstart with rfl | rfl | rfl
  · obtain ⟨body, rfl, hbody⟩ := mem_lineComment_iff.mp hlonger
    obtain ⟨_, hrest⟩ := hpre
    cases hrest
  · have hsome := commentLength?_eq_of_mem hlonger (hsplit ▸ hpre)
    have hlength := Option.some.inj (h.symm.trans hsome)
    simp only [List.length_cons, List.length_append, List.length_nil]
    omega
  · cases mem_exactly.mp hlonger
    exact Nat.succ_le_succ (Nat.zero_le _)

theorem takes_unclosed (h : commentLength? cs = none) :
    Takes ('/' :: '*' :: cs) ⟨some .invalid, cs.length + 2⟩ := by
  have hsplit : '/' :: '*' :: cs = '/' :: '*' :: cs ++ [] := (List.append_nil _).symm
  exact ⟨_, [], hsplit, rfl, List.cons_ne_nil _ _, fun pattern h => (by cases h),
    fun k hk => absurd hk (ne_keyword (by decide) hsplit k), fun value h => (by cases h),
    fun _ => .unclosed cs rfl (noEnd_of_commentLength?_eq_none h) rfl⟩

/-! ## Symbols -/

theorem longest_symbol {s : Symbol}
    (h : Symbol.all.find? (·.chars.isPrefixOf cs) = some s) :
    s.chars <+: cs ∧
      ∀ other : Symbol, other.chars <+: cs → other.chars.length ≤ s.chars.length := by
  obtain ⟨hpre, before, after, hall, hbefore⟩ := List.find?_eq_some_iff_append.mp h
  refine ⟨List.isPrefixOf_iff_prefix.mp hpre, fun other hother => ?_⟩
  have hsorted : Symbol.all.Pairwise fun a b => b.chars.length ≤ a.chars.length := by decide
  have hmem := Symbol.mem_all other
  rw [hall] at hmem hsorted
  rcases List.mem_append.mp hmem with hmem | hmem
  · have := hbefore other hmem
    rw [List.isPrefixOf_iff_prefix.mpr hother] at this
    cases this
  · rcases List.mem_cons.mp hmem with rfl | hmem
    · exact Nat.le_refl _
    · exact (List.pairwise_cons.mp (List.pairwise_append.mp hsorted).2.1).1 other hmem

/-- Where nothing but symbols can stand, the longest of them does. -/
theorem takes_symbol (hc : startOf c ≠ .letter)
    (hsymbols : ∀ (pattern : Pattern) (w : List Char), pattern.start = startOf c →
      w ∈ pattern.language → w <+: c :: cs → ∃ s, pattern = .symbol s) :
    Takes (c :: cs) (symbol (c :: cs)) := by
  unfold symbol
  split
  · next s hs =>
    obtain ⟨⟨rest, hsplit⟩, hlongest⟩ := longest_symbol hs
    refine ⟨s.chars, rest, hsplit.symm, rfl, by cases s <;> exact List.cons_ne_nil _ _,
      fun pattern h => ?_, fun k hk => absurd hk (ne_keyword hc hsplit.symm k),
      fun value h => (by cases h), fun h => (by cases h)⟩
    cases h
    refine ⟨mem_exactly.mpr rfl, fun other longer hlonger hpre => ?_⟩
    rw [hsplit] at hpre
    obtain ⟨s', rfl⟩ := hsymbols other longer (Pattern.start_eq_of_mem hlonger hpre) hlonger hpre
    cases mem_exactly.mp hlonger
    exact hlongest s' hpre
  · next hnone =>
    have hsplit : c :: cs = [c] ++ cs := rfl
    refine ⟨[c], cs, hsplit, rfl, List.cons_ne_nil _ _, fun pattern h => (by cases h),
      fun k hk => absurd hk (ne_keyword hc hsplit k), fun value h => (by cases h),
      fun _ => .of_start (fun pattern w hstart hw hpre => ?_) hsplit⟩
    obtain ⟨s, rfl⟩ := hsymbols pattern w hstart hw hpre
    cases mem_exactly.mp hw
    exact List.find?_eq_none.mp hnone s (Symbol.mem_all s) (List.isPrefixOf_iff_prefix.mpr hpre)

/-! ## Pieces and texts -/

/-- Every piece is rightly taken. -/
theorem takes_chunk (c : Char) (cs : List Char) : Takes (c :: cs) (chunk c cs) := by
  unfold chunk
  by_cases hblank : isBlank c
  · rw [if_pos hblank]
    exact takes_blanks hblank
  by_cases hdigit : c.isDigit
  · rw [if_neg hblank, if_pos hdigit]
    exact takes_number hdigit
  by_cases hletter : isWordStart c
  · rw [if_neg hblank, if_neg hdigit, if_pos hletter]
    exact takes_word hletter
  rw [if_neg hblank, if_neg hdigit, if_neg hletter]
  by_cases hquote : c = '"'
  · rw [if_pos hquote, hquote]
    exact takes_stringLiteral
  by_cases hslash : c = '/'
  · subst hslash
    rw [if_neg hquote, if_pos rfl]
    split
    · exact takes_lineComment
    · split
      · next hsome => exact takes_blockComment hsome
      · next hnone => exact takes_unclosed hnone
    · next hline hblock =>
      refine takes_symbol (by decide) fun pattern w hstart hw hpre => ?_
      rcases Pattern.eq_of_start_slash hstart with rfl | rfl | rfl
      · obtain ⟨body, rfl, -⟩ := mem_lineComment_iff.mp hw
        obtain ⟨_, hrest⟩ := hpre
        cases hrest
        exact absurd rfl (hline _)
      · obtain ⟨body, rfl, -⟩ := mem_blockComment_iff.mp hw
        obtain ⟨_, hrest⟩ := hpre
        cases hrest
        exact absurd rfl (hblock _)
      · exact ⟨_, rfl⟩
  · have hstart : startOf c = .other := by
      rw [startOf, if_neg hblank, if_neg hdigit, if_neg hletter, if_neg hquote, if_neg hslash]
    rw [if_neg hquote, if_neg hslash]
    exact takes_symbol (by rw [hstart]; decide) fun pattern w h _ _ =>
      Pattern.eq_of_start_other (h.trans hstart)

/-- A text from byte `start` on as a row of pieces, and the tokens among them. -/
inductive Cut : Nat → List Char → List Lexeme → Prop where
  | done (start : Nat) : Cut start [] []
  | skip {start : Nat} {word rest : List Char} {lexemes : List Lexeme} (h : Reads none word rest)
      (hrest : Cut (start + byteLength word) rest lexemes) : Cut start (word ++ rest) lexemes
  | token {start : Nat} {token : Token} {word rest : List Char} {lexemes : List Lexeme}
      (hne : word ≠ []) (h : ReadAs token word rest)
      (hrest : Cut (start + byteLength word) rest lexemes) :
      Cut start (word ++ rest) (⟨token, start, start + byteLength word⟩ :: lexemes)

/-- As every piece takes a character, the length of a text bounds the number of its pieces. -/
theorem cut_lexWithin {fuel : Nat} (h : cs.length ≤ fuel) (start : Nat) :
    Cut start cs (lexWithin fuel start cs) := by
  induction fuel generalizing start cs with
  | zero =>
    cases List.length_eq_zero_iff.mp (Nat.le_zero.mp h)
    exact .done start
  | succ fuel ih =>
    cases cs with
    | nil => exact .done start
    | cons c cs =>
      obtain ⟨word, rest, hsplit, hlength, hne, hreads⟩ := takes_chunk c cs
      have htake : (c :: cs).take word.length = word := by rw [hsplit, List.take_left]
      have hdrop : (c :: cs).drop word.length = rest := by rw [hsplit, List.drop_left]
      have hfuel : rest.length ≤ fuel := by
        have := congrArg List.length hsplit
        rw [List.length_append] at this
        have := List.length_pos_iff.mpr hne
        omega
      have hrest := ih hfuel (start + byteLength word)
      rw [lexWithin]
      simp only [hlength, htake, hdrop]
      split
      · next token htoken =>
        rw [htoken] at hreads
        rw [hsplit]
        exact .token hne hreads hrest
      · next htoken =>
        rw [htoken] at hreads
        rw [hsplit]
        exact .skip hreads hrest

theorem Cut.exists_of_mem {start : Nat} {lexemes : List Lexeme} {l : Lexeme}
    (h : Cut start cs lexemes) (hl : l ∈ lexemes) : ∃ before word rest,
    cs = before ++ word ++ rest ∧ l.start = start + byteLength before ∧
    l.stop = start + byteLength (before ++ word) ∧ ReadAs l.token word rest := by
  induction h with
  | done => cases hl
  | @skip start first later lexemes _ _ ih =>
    obtain ⟨before, word, rest, rfl, hstart, hstop, hread⟩ := ih hl
    refine ⟨first ++ before, word, rest, by simp, ?_, ?_, hread⟩
    · rw [hstart, byteLength_append, Nat.add_assoc]
    · rw [hstop, List.append_assoc, byteLength_append first, Nat.add_assoc]
  | @token start token first later lexemes _ hread _ ih =>
    rcases List.mem_cons.mp hl with rfl | hl
    · exact ⟨[], first, later, rfl, rfl, rfl, hread⟩
    · obtain ⟨before, word, rest, rfl, hstart, hstop, hread⟩ := ih hl
      refine ⟨first ++ before, word, rest, by simp, ?_, ?_, hread⟩
      · rw [hstart, byteLength_append, Nat.add_assoc]
      · rw [hstop, List.append_assoc, byteLength_append first, Nat.add_assoc]

/--
Every token is the longest match at its place, a keyword rather than an identifier, and an integer
has the value of its digits. What is invalid begins no token, or is an integer too large for one,
or opens a comment that nothing closes.
-/
theorem readAs_of_mem_locate {source : Nat} {text : String} {token : Token} {loc : Loc}
    (h : (token, loc) ∈ locate source text) : ∃ before word rest : String,
    text = before ++ word ++ rest ∧
    loc = ⟨source, before.utf8ByteSize, (before ++ word).utf8ByteSize⟩ ∧
    ReadAs token word.toList rest.toList := by
  obtain ⟨l, hl, htoken⟩ := List.mem_map.mp h
  cases htoken
  obtain ⟨before, word, rest, hsplit, hstart, hstop, hread⟩ :=
    (cut_lexWithin (Nat.le_refl _) 0).exists_of_mem hl
  refine ⟨String.ofList before, String.ofList word, String.ofList rest, ?_, ?_, ?_⟩
  · rw [← String.ofList_append, ← String.ofList_append, ← hsplit, String.ofList_toList]
  · rw [← String.ofList_append, utf8ByteSize_ofList, utf8ByteSize_ofList, hstart, hstop,
      Nat.zero_add, Nat.zero_add]
  · rwa [String.toList_ofList, String.toList_ofList]

/-- A number backs off from an exponent that it does not have. -/
theorem readAs_of_mem_locate_number :
    (Token.int 12, ⟨7, 0, 2⟩) ∈ locate 7 "12.e" ∧ ∃ before word rest : String,
    "12.e" = before ++ word ++ rest ∧
    (⟨7, 0, 2⟩ : Loc) = ⟨7, before.utf8ByteSize, (before ++ word).utf8ByteSize⟩ ∧
    ReadAs (.int 12) word.toList rest.toList :=
  have h : (Token.int 12, ⟨7, 0, 2⟩) ∈ locate 7 "12.e" := by decide +kernel
  ⟨h, readAs_of_mem_locate h⟩

end FlatScope.Lexer
