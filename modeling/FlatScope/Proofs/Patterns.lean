import Mathlib.Computability.Language
import Mathlib.Data.List.Chain
import FlatScope.Token.Lexer

/-!
# The patterns of a text

`Pattern.language` is the set of texts that a pattern stands for, as a regular expression writes it:
blank space and the two forms of comments, symbols, keywords, literals and identifiers. A block
comment is what ends at the first `*/` behind its opening (`mem_blockComment_iff`).
-/

namespace FlatScope.Lexer

open scoped Computability

variable {p : Char → Bool} {c : Char} {w cs : List Char}

/-! ## Runs -/

/-- A list is a run of characters that satisfy `p`, and a rest that does not go on with one. -/
structure Run (p : Char → Bool) (front rest : List Char) : Prop where
  all : ∀ c ∈ front, p c
  stops : ∀ c, rest.head? = some c → p c = false

theorem exists_run (p : Char → Bool) (cs : List Char) : ∃ front rest,
    cs = front ++ rest ∧ runLength p cs = front.length ∧ Run p front rest := by
  refine ⟨cs.takeWhile p, cs.dropWhile p, List.takeWhile_append_dropWhile.symm, rfl,
    List.all_eq_true.mp List.all_takeWhile, fun c hc => ?_⟩
  have := List.head?_dropWhile_not p cs
  simpa only [hc] using this

variable {front front' rest rest' : List Char}

theorem Run.takeWhile (h : Run p front rest) : (front ++ rest).takeWhile p = front := by
  rw [List.takeWhile_append_of_pos h.all]
  cases rest with
  | nil => exact List.append_nil front
  | cons c rest =>
    rw [List.takeWhile_cons_of_neg (by rw [h.stops c rfl]; exact Bool.false_ne_true),
      List.append_nil]

/-- There is one way only to read a run. -/
theorem Run.unique (h : Run p front rest) (h' : Run p front' rest')
    (heq : front ++ rest = front' ++ rest') : front = front' ∧ rest = rest' := by
  have hfront : front = front' := by rw [← h.takeWhile, heq, h'.takeWhile]
  subst hfront
  exact ⟨rfl, List.append_cancel_left heq⟩

/-- Nothing of such characters is longer than their run. -/
theorem Run.length_le (h : Run p front rest) (hw : ∀ c ∈ w, p c) (hpre : w <+: front ++ rest) :
    w.length ≤ front.length := by
  by_contra hlt
  obtain ⟨more, rfl⟩ := List.prefix_of_prefix_length_le (List.prefix_append front rest) hpre
    (Nat.le_of_lt (Nat.lt_of_not_le hlt))
  have hmore := (List.prefix_append_right_inj front).mp hpre
  cases more with
  | nil => exact hlt (by rw [List.append_nil])
  | cons c more =>
    obtain ⟨after, rfl⟩ := hmore
    exact absurd (hw c (by simp)) (by rw [h.stops c rfl]; exact Bool.false_ne_true)

/-! ## Regular expressions -/

/-- One character that satisfies `p`. -/
def one (p : Char → Bool) : Language Char := {w | ∃ c, p c ∧ w = [c]}

/-- This text and no other. -/
def exactly (text : List Char) : Language Char := {text}

def oneOrMore (l : Language Char) : Language Char := l * l∗

def optionally (l : Language Char) : Language Char := 1 + l

inductive Pattern where
  | lineComment
  | blockComment
  | blanks
  | symbol (symbol : Symbol)
  | keyword (keyword : Keyword)
  | int
  | float
  | string
  | identifier

/-- Up to the next row of stars and through it. -/
def untilStars : Language Char := (one (· != '*'))∗ * oneOrMore (one (· == '*'))

def commentBody : Language Char :=
  untilStars * (one (fun c => c != '/' && c != '*') * untilStars)∗

def digits : Language Char := oneOrMore (one Char.isDigit)

def exponent : Language Char :=
  one (fun c => c == 'e' || c == 'E') * optionally (one fun c => c == '+' || c == '-') * digits

/-- A character of a string literal, or a backslash and the character it takes with it. -/
def stringItem : Language Char :=
  exactly ['\\'] * one (· != '\n') + one fun c => c != '\\' && c != '"'

def Pattern.language : Pattern → Language Char
  | lineComment => exactly ['/', '/'] * (one (· != '\n'))∗
  | blockComment => exactly ['/', '*'] * commentBody * exactly ['/']
  | blanks => oneOrMore (one (· ∈ [' ', '\t', '\r', '\n', '\x0c']))
  | symbol s => exactly s.chars
  | keyword k => exactly k.text.toList
  | int => digits
  | float => digits * exactly ['.'] * digits * optionally exponent
  | string => exactly ['"'] * stringItem∗ * exactly ['"']
  | identifier => one (fun c => c == '_' || c.isAlpha) * (one fun c => c == '_' || c.isAlphanum)∗

theorem mem_exactly {text : List Char} : w ∈ exactly text ↔ w = text := Iff.rfl

theorem mem_exactly_mul {text : List Char} {l : Language Char} :
    w ∈ exactly text * l ↔ ∃ v ∈ l, w = text ++ v := by
  constructor
  · rintro ⟨_, rfl, v, hv, rfl⟩
    exact ⟨v, hv, rfl⟩
  · rintro ⟨v, hv, rfl⟩
    exact Language.append_mem_mul rfl hv

theorem mem_mul_exactly {text : List Char} {l : Language Char} :
    w ∈ l * exactly text ↔ ∃ v ∈ l, w = v ++ text := by
  constructor
  · rintro ⟨v, hv, _, rfl, rfl⟩
    exact ⟨v, hv, rfl⟩
  · rintro ⟨v, hv, rfl⟩
    exact Language.append_mem_mul hv rfl

theorem mem_optionally {l : Language Char} : w ∈ optionally l ↔ w = [] ∨ w ∈ l := Iff.rfl

theorem append_mem_kstar {l : Language Char} {v w : List Char} (hv : v ∈ l) (hw : w ∈ l∗) :
    v ++ w ∈ l∗ := by
  obtain ⟨parts, rfl, hparts⟩ := Language.mem_kstar.mp hw
  exact Language.mem_kstar.mpr ⟨v :: parts, rfl, List.forall_mem_cons.mpr ⟨hv, hparts⟩⟩

theorem mem_kstar_one : w ∈ (one p)∗ ↔ ∀ c ∈ w, p c := by
  constructor
  · intro h c hc
    obtain ⟨parts, rfl, hparts⟩ := Language.mem_kstar.mp h
    obtain ⟨part, hpart, hc⟩ := List.mem_flatten.mp hc
    obtain ⟨d, hd, rfl⟩ := hparts part hpart
    rwa [List.mem_singleton.mp hc]
  · intro h
    induction w with
    | nil => exact Language.nil_mem_kstar _
    | cons c w ih =>
      obtain ⟨hc, hw⟩ := List.forall_mem_cons.mp h
      exact append_mem_kstar (v := [c]) ⟨c, hc, rfl⟩ (ih hw)

theorem mem_oneOrMore_one : w ∈ oneOrMore (one p) ↔ w ≠ [] ∧ ∀ c ∈ w, p c := by
  constructor
  · rintro ⟨_, ⟨c, hc, rfl⟩, v, hv, rfl⟩
    exact ⟨List.cons_ne_nil c v, List.forall_mem_cons.mpr ⟨hc, mem_kstar_one.mp hv⟩⟩
  · rintro ⟨hne, hall⟩
    cases w with
    | nil => exact absurd rfl hne
    | cons c w =>
      obtain ⟨hc, hw⟩ := List.forall_mem_cons.mp hall
      exact Language.append_mem_mul (a := [c]) ⟨c, hc, rfl⟩ (mem_kstar_one.mpr hw)

theorem mem_digits : w ∈ digits ↔ w ≠ [] ∧ ∀ c ∈ w, c.isDigit := mem_oneOrMore_one

theorem mem_exponent_iff : w ∈ exponent ↔ ∃ e sign ds, w = e :: (sign ++ ds) ∧
    (e = 'e' ∨ e = 'E') ∧ (sign = [] ∨ sign = ['+'] ∨ sign = ['-']) ∧ ds ∈ digits := by
  constructor
  · intro h
    obtain ⟨_, hfront, ds, hds, rfl⟩ := Language.mem_mul.mp h
    obtain ⟨_, ⟨e, he, rfl⟩, sign, hsign, rfl⟩ := Language.mem_mul.mp hfront
    refine ⟨e, sign, ds, rfl, by simpa using he, ?_, hds⟩
    rcases mem_optionally.mp hsign with rfl | ⟨c, hc, rfl⟩
    · exact .inl rfl
    · exact .inr (by simpa using hc)
  · rintro ⟨e, sign, ds, rfl, he, hsign, hds⟩
    have hsign : sign ∈ optionally (one fun c => c == '+' || c == '-') := by
      rcases hsign with rfl | rfl | rfl
      · exact .inl rfl
      · exact .inr ⟨'+', rfl, rfl⟩
      · exact .inr ⟨'-', rfl, rfl⟩
    exact Language.append_mem_mul (a := e :: sign)
      (Language.append_mem_mul (a := [e]) ⟨e, by simpa using he, rfl⟩ hsign) hds

theorem mem_float_iff : w ∈ Pattern.float.language ↔ ∃ whole fraction tail,
    w = whole ++ '.' :: (fraction ++ tail) ∧ whole ∈ digits ∧ fraction ∈ digits ∧
    tail ∈ optionally exponent := by
  rw [Pattern.language]
  constructor
  · intro h
    obtain ⟨_, hfront, tail, htail, rfl⟩ := Language.mem_mul.mp h
    obtain ⟨_, hpoint, fraction, hfraction, rfl⟩ := Language.mem_mul.mp hfront
    obtain ⟨whole, hwhole, rfl⟩ := mem_mul_exactly.mp hpoint
    exact ⟨whole, fraction, tail, by simp, hwhole, hfraction, htail⟩
  · rintro ⟨whole, fraction, tail, rfl, hwhole, hfraction, htail⟩
    have hpoint := mem_mul_exactly.mpr ⟨whole, hwhole, (rfl : whole ++ ['.'] = _)⟩
    simpa using Language.append_mem_mul (Language.append_mem_mul hpoint hfraction) htail

theorem mem_lineComment_iff : w ∈ Pattern.lineComment.language ↔
    ∃ body, w = '/' :: '/' :: body ∧ ∀ c ∈ body, c ≠ '\n' := by
  rw [Pattern.language, mem_exactly_mul]
  simp only [mem_kstar_one, bne_iff_ne, and_comm, List.cons_append, List.nil_append]

theorem mem_string_iff : w ∈ Pattern.string.language ↔
    ∃ body ∈ stringItem∗, w = '"' :: (body ++ ['"']) := by
  rw [Pattern.language, mem_mul_exactly]
  constructor
  · rintro ⟨_, h, rfl⟩
    obtain ⟨body, hbody, rfl⟩ := mem_exactly_mul.mp h
    exact ⟨body, hbody, rfl⟩
  · rintro ⟨body, hbody, rfl⟩
    exact ⟨'"' :: body, mem_exactly_mul.mpr ⟨body, hbody, rfl⟩, rfl⟩

theorem mem_identifier_iff : w ∈ Pattern.identifier.language ↔
    ∃ c v, w = c :: v ∧ isWordStart c ∧ ∀ d ∈ v, isWordPart d := by
  simp only [isWordStart, isWordPart, Bool.or_comm _ (_ == '_')]
  constructor
  · intro h
    obtain ⟨_, ⟨c, hc, rfl⟩, v, hv, rfl⟩ := Language.mem_mul.mp h
    exact ⟨c, v, rfl, hc, mem_kstar_one.mp hv⟩
  · rintro ⟨c, v, rfl, hc, hv⟩
    exact Language.append_mem_mul (a := [c]) ⟨c, hc, rfl⟩ (mem_kstar_one.mpr hv)

/-! ## Block comments -/

/-- Text without `*/`. -/
def NoEnd (cs : List Char) : Prop := ¬ ['*', '/'] <:+: cs

theorem noEnd_iff_isChain : NoEnd cs ↔ cs.IsChain fun a b => a = '*' → b ≠ '/' := by
  rw [List.isChain_iff_forall_rel_of_append_cons_cons, NoEnd]
  constructor
  · rintro h a b before after rfl rfl rfl
    exact h ⟨before, after, by simp⟩
  · rintro h ⟨before, after, rfl⟩
    have hsplit : before ++ ['*', '/'] ++ after = before ++ '*' :: '/' :: after := by simp
    exact h hsplit rfl rfl

theorem NoEnd.mono {v : List Char} (h : NoEnd w) (hv : v <:+: w) : NoEnd v :=
  fun hend => h (hend.trans hv)

theorem NoEnd.append {v : List Char} (hv : NoEnd v) (hw : NoEnd w)
    (hhead : w.head? ≠ some '/') : NoEnd (v ++ w) := by
  rw [noEnd_iff_isChain] at *
  refine hv.append hw fun a _ b hb _ hslash => hhead ?_
  rw [← hslash]
  exact hb

theorem NoEnd.cons (h : NoEnd w) (hc : c = '*' → w.head? ≠ some '/') : NoEnd (c :: w) := by
  rw [noEnd_iff_isChain] at *
  refine h.cons fun b hb hstar hslash => hc hstar ?_
  rw [← hslash]
  exact hb

theorem noEnd_of_forall_ne (h : ∀ c ∈ w, c ≠ '*') : NoEnd w := by
  rintro ⟨before, after, rfl⟩
  exact h '*' (by simp) rfl

theorem noEnd_of_forall_eq (h : ∀ c ∈ w, c = '*') : NoEnd w := by
  rintro ⟨before, after, rfl⟩
  exact absurd (h '/' (by simp)) (by decide)

theorem mem_untilStars : w ∈ untilStars ↔ ∃ text stars, w = text ++ stars ∧
    (∀ c ∈ text, c ≠ '*') ∧ stars ≠ [] ∧ ∀ c ∈ stars, c = '*' := by
  constructor
  · rintro ⟨text, htext, stars, hstars, rfl⟩
    obtain ⟨hne, hall⟩ := mem_oneOrMore_one.mp hstars
    exact ⟨text, stars, rfl, fun c hc => bne_iff_ne.mp (mem_kstar_one.mp htext c hc), hne,
      fun c hc => beq_iff_eq.mp (hall c hc)⟩
  · rintro ⟨text, stars, rfl, htext, hne, hstars⟩
    exact Language.append_mem_mul (mem_kstar_one.mpr fun c hc => bne_iff_ne.mpr (htext c hc))
      (mem_oneOrMore_one.mpr ⟨hne, fun c hc => beq_iff_eq.mpr (hstars c hc)⟩)

/-- Text that is one slash short of ending a block comment, and does not end it before. -/
structure Pending (w : List Char) : Prop where
  noEnd : NoEnd w
  last : w.getLast? = some '*'

theorem NoEnd.append_pending {v : List Char} (hv : NoEnd v) (hw : Pending w)
    (hhead : w.head? ≠ some '/') : Pending (v ++ w) :=
  ⟨hv.append hw.noEnd hhead, by rw [List.getLast?_append, hw.last, Option.some_or]⟩

theorem Pending.cons (h : Pending w) (hc : c ≠ '*') : Pending ([c] ++ w) :=
  ⟨h.noEnd.cons fun hstar => absurd hstar hc, by rw [List.getLast?_append, h.last, Option.some_or]⟩

theorem pending_of_mem_untilStars (h : w ∈ untilStars) : Pending w := by
  obtain ⟨text, stars, rfl, htext, hne, hstars⟩ := mem_untilStars.mp h
  refine (noEnd_of_forall_ne htext).append_pending ⟨noEnd_of_forall_eq hstars, ?_⟩ fun hhead => ?_
  · rw [List.getLast?_eq_some_getLast hne, hstars _ (List.getLast_mem hne)]
  · exact absurd (hstars '/' (List.mem_of_mem_head? hhead)) (by decide)

/-- Text up to the next stars and these stars, and what stands behind them. -/
theorem Pending.cases (h : Pending w) : w ∈ untilStars ∨
    ∃ v c rest, w = v ++ c :: rest ∧ v ∈ untilStars ∧ (c ≠ '/' ∧ c ≠ '*') ∧ Pending rest := by
  obtain ⟨text, later, hw, -, htext, hlater⟩ := exists_run (· != '*') w
  obtain ⟨stars, rest, hsplit, -, hstars, hrest⟩ := exists_run (· == '*') later
  simp only [bne_iff_ne, beq_iff_eq, bne_eq_false_iff_eq, beq_eq_false_iff_ne] at *
  have hne : stars ≠ [] := by
    rintro rfl
    rw [List.nil_append] at hsplit
    subst hsplit
    -- the last character is a star, so the text before the stars is not all of it
    cases later with
    | nil =>
      refine htext '*' ?_ rfl
      rw [hw, List.append_nil] at h
      exact List.mem_of_getLast? h.last
    | cons c _ => exact hrest c rfl (hlater c rfl)
  subst hsplit
  have huntil : text ++ stars ∈ untilStars :=
    mem_untilStars.mpr ⟨text, stars, rfl, htext, hne, hstars⟩
  rw [← List.append_assoc] at hw
  subst hw
  cases rest with
  | nil => exact .inl (by rwa [List.append_nil])
  | cons c rest =>
    have hslash : c ≠ '/' := by
      rintro rfl
      refine (h.noEnd.mono (v := ['*', '/']) ?_).elim ⟨[], [], rfl⟩
      refine ⟨text ++ stars.dropLast, rest, ?_⟩
      have hlast := List.dropLast_append_getLast hne
      rw [hstars _ (List.getLast_mem hne)] at hlast
      calc text ++ stars.dropLast ++ ['*', '/'] ++ rest
          = text ++ (stars.dropLast ++ ['*']) ++ '/' :: rest := by simp
        _ = text ++ stars ++ '/' :: rest := by rw [hlast]
    have hend : rest <:+ text ++ stars ++ c :: rest := ⟨text ++ stars ++ [c], by simp⟩
    refine .inr ⟨_, c, rest, rfl, huntil, ⟨hslash, hrest c rfl⟩, h.noEnd.mono hend.isInfix, ?_⟩
    have hlast := h.last
    rw [List.getLast?_append_cons, List.getLast?_cons] at hlast
    cases hr : rest.getLast? with
    | none =>
      rw [hr, Option.getD_none] at hlast
      exact absurd (Option.some.inj hlast) (hrest c rfl)
    | some d => rwa [hr, Option.getD_some] at hlast

/-- What the pattern of block comments asks for between the opening and the last slash. -/
theorem mem_commentBody_iff : w ∈ commentBody ↔ Pending w := by
  constructor
  · intro h
    obtain ⟨v, hv, later, hlater, rfl⟩ := Language.mem_mul.mp h
    obtain ⟨parts, rfl, hparts⟩ := Language.mem_kstar.mp hlater
    replace hv : Pending v := pending_of_mem_untilStars hv
    clear h hlater
    induction parts generalizing v with
    | nil => rwa [List.flatten_nil, List.append_nil]
    | cons part parts ih =>
      obtain ⟨hpart, hlater⟩ := List.forall_mem_cons.mp hparts
      obtain ⟨_, ⟨c, hc, rfl⟩, u, hu, rfl⟩ := Language.mem_mul.mp hpart
      have hstart : c ≠ '/' ∧ c ≠ '*' := by simpa using hc
      have hu : Pending ([c] ++ u) := (pending_of_mem_untilStars hu).cons hstart.2
      rw [List.flatten_cons, ← List.append_assoc]
      exact ih _ hlater (hv.noEnd.append_pending hu fun h => hstart.1 (Option.some.inj h))
  · intro h
    induction hn : w.length using Nat.strong_induction_on generalizing w with
    | _ n ih =>
      rcases h.cases with hw | ⟨v, c, rest, rfl, hv, hc, hrest⟩
      · exact Language.mem_mul.mpr ⟨w, hw, [], Language.nil_mem_kstar _, List.append_nil w⟩
      · have hlt : rest.length < n := by
          rw [← hn, List.length_append, List.length_cons]
          omega
        obtain ⟨u, hu, later, hlater, rfl⟩ := Language.mem_mul.mp (ih _ hlt hrest rfl)
        have hpart : [c] ++ u ∈ one (fun c => c != '/' && c != '*') * untilStars :=
          Language.append_mem_mul ⟨c, by simpa using hc, rfl⟩ hu
        exact Language.append_mem_mul hv (append_mem_kstar hpart hlater)

/-- A block comment ends at the first `*/` behind its opening. -/
theorem mem_blockComment_iff : w ∈ Pattern.blockComment.language ↔
    ∃ body, w = ['/', '*'] ++ body ++ ['*', '/'] ∧ NoEnd (body ++ ['*']) := by
  rw [Pattern.language, mem_mul_exactly]
  constructor
  · rintro ⟨_, h, rfl⟩
    obtain ⟨text, htext, rfl⟩ := mem_exactly_mul.mp h
    have htext := mem_commentBody_iff.mp htext
    obtain ⟨body, rfl⟩ := List.getLast?_eq_some_iff.mp htext.last
    exact ⟨body, by simp, htext.noEnd⟩
  · rintro ⟨body, rfl, hbody⟩
    have htext : body ++ ['*'] ∈ commentBody :=
      mem_commentBody_iff.mpr ⟨hbody, List.getLast?_concat⟩
    exact ⟨['/', '*'] ++ (body ++ ['*']), mem_exactly_mul.mpr ⟨_, htext, rfl⟩, by simp⟩

end FlatScope.Lexer
