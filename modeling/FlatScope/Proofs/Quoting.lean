import FlatScope.Proofs.Patterns
import FlatScope.Text.Quoted

/-!
# Codes that show their end

A code `Delimits` its elements if a text that begins with the code of one tells which element it is
and where its code ends. Words with a stop behind them are such a code (`delimits_terminated`), and
a list of codes is one if what follows begins none (`Delimits.flatMap`). `Text.quoted` is one as
well: nothing in a literal can be taken for its closing quote (`delimits_quoted`), and all that is
in it is printable (`isPrintable_of_mem_quoted`).
-/

namespace FlatScope

open Lexer

variable {α : Type} {P : α → Prop} {code : α → List Char}

/-- Where a code of an element with `P` begins, only that one does, and its end is known. -/
def Delimits (P : α → Prop) (code : α → List Char) : Prop :=
  ∀ a b s t, P a → P b → code a ++ s = code b ++ t → a = b ∧ s = t

/-- A text without the stop ends before the first one. -/
theorem delimits_terminated (stop : Char) :
    Delimits (fun w : List Char => stop ∉ w) (· ++ [stop]) := by
  intro v w s t hv hw h
  have hrun : ∀ (w s : List Char), stop ∉ w → Run (· != stop) w (stop :: s) := by
    intro w s hw
    refine ⟨fun c hc => bne_iff_ne.mpr fun eq => hw (eq ▸ hc), fun c hc => ?_⟩
    cases hc
    exact bne_self_eq_false stop
  have heq : v ++ stop :: s = w ++ stop :: t := by
    simpa only [List.append_assoc, List.singleton_append] using h
  obtain ⟨rfl, hrest⟩ := (hrun v s hv).unique (hrun w t hw) heq
  exact ⟨rfl, (List.cons.inj hrest).2⟩

/-- A list of codes is read code by code; what follows begins none. -/
theorem Delimits.flatMap (h : Delimits P code) {as bs : List α} {s t : List Char}
    (hs : ∀ a u, P a → s ≠ code a ++ u) (ht : ∀ a u, P a → t ≠ code a ++ u)
    (ha : ∀ a ∈ as, P a) (hb : ∀ b ∈ bs, P b)
    (heq : as.flatMap code ++ s = bs.flatMap code ++ t) : as = bs ∧ s = t := by
  induction as generalizing bs with
  | nil =>
    cases bs with
    | nil => exact ⟨rfl, heq⟩
    | cons b bs =>
      rw [List.flatMap_cons, List.append_assoc] at heq
      exact absurd heq (hs b _ (hb b List.mem_cons_self))
  | cons a as ih =>
    cases bs with
    | nil =>
      rw [List.flatMap_cons, List.append_assoc] at heq
      exact absurd heq.symm (ht a _ (ha a List.mem_cons_self))
    | cons b bs =>
      rw [List.flatMap_cons, List.flatMap_cons, List.append_assoc, List.append_assoc] at heq
      obtain ⟨rfl, hrest⟩ := h a b _ _ (ha a List.mem_cons_self) (hb b List.mem_cons_self) heq
      obtain ⟨rfl, rfl⟩ := ih (fun a h => ha a (List.mem_cons_of_mem _ h))
        (fun b h => hb b (List.mem_cons_of_mem _ h)) hrest
      exact ⟨rfl, rfl⟩

/-- Two lists of words are equal if they are with the stop behind every word. -/
theorem eq_of_terminated (stop : Char) {vs ws : List (List Char)} (hv : ∀ v ∈ vs, stop ∉ v)
    (hw : ∀ w ∈ ws, stop ∉ w) (h : vs.flatMap (· ++ [stop]) = ws.flatMap (· ++ [stop])) :
    vs = ws := by
  have hend : ∀ (w u : List Char), stop ∉ w → [] ≠ (w ++ [stop]) ++ u := by simp
  exact ((delimits_terminated stop).flatMap hend hend hv hw (congrArg (· ++ []) h)).1

namespace Text

variable {c d : Char} {m n : Nat}

/-! ## Numbers in hexadecimal -/

theorem exists_of_mem_hex (h : c ∈ hex n) : ∃ d < 16, c = Nat.digitChar d := by
  induction n using Nat.strong_induction_on with
  | _ n ih =>
    rcases Nat.lt_or_ge n 16 with hn | hn
    · rw [hex, Nat.toDigits_of_lt_base hn] at h
      exact ⟨n, hn, List.mem_singleton.mp h⟩
    · rw [hex, Nat.toDigits_of_base_le (by decide) hn] at h
      rcases List.mem_append.mp h with h | h
      · exact ih (n / 16) (by omega) h
      · exact ⟨n % 16, Nat.mod_lt n (by decide), List.mem_singleton.mp h⟩

theorem digitChar_inj : ∀ m < 16, ∀ n < 16, Nat.digitChar m = Nat.digitChar n → m = n := by decide

theorem hex_inj (h : hex m = hex n) : m = n := by
  induction m using Nat.strong_induction_on generalizing n with
  | _ m ih =>
    unfold hex at h ih
    rcases Nat.lt_or_ge m 16 with hm | hm <;> rcases Nat.lt_or_ge n 16 with hn | hn
    · rw [Nat.toDigits_of_lt_base hm, Nat.toDigits_of_lt_base hn] at h
      exact digitChar_inj m hm n hn (List.singleton_inj.mp h)
    · rw [Nat.toDigits_of_lt_base hm, Nat.toDigits_of_base_le (by decide) hn] at h
      exact absurd (List.append_eq_singleton_iff.mp h.symm) (by simp [Nat.toDigits_ne_nil])
    · rw [Nat.toDigits_of_base_le (by decide) hm, Nat.toDigits_of_lt_base hn] at h
      exact absurd (List.append_eq_singleton_iff.mp h) (by simp [Nat.toDigits_ne_nil])
    · rw [Nat.toDigits_of_base_le (by decide) hm, Nat.toDigits_of_base_le (by decide) hn] at h
      obtain ⟨hinit, hlast⟩ := List.append_inj' h rfl
      have hdiv := ih (m / 16) (by omega) hinit
      have hmod := digitChar_inj _ (Nat.mod_lt m (by decide)) _ (Nat.mod_lt n (by decide))
        (List.singleton_inj.mp hlast)
      omega

/-! ## Quoted text -/

/-- The characters that a letter behind a backslash stands for. -/
def letters : List (Char × Char) :=
  [('\x00', '0'), ('\t', 't'), ('\r', 'r'), ('\n', 'n'), ('"', '"'), ('\\', '\\')]

/-- A character stands for itself, behind a backslash by a letter or by its number. -/
theorem quotedChar_cases (c : Char) :
    (quotedChar c = [c] ∧ c ≠ '"' ∧ c ≠ '\\' ∧ isPrintable c) ∨
      (∃ d, (c, d) ∈ letters ∧ quotedChar c = ['\\', d]) ∨
      quotedChar c = ['\\', 'u', '\x7b'] ++ (hex c.toNat ++ ['\x7d']) := by
  unfold quotedChar
  split
  · exact .inr (.inl ⟨_, by decide, rfl⟩)
  · exact .inr (.inl ⟨_, by decide, rfl⟩)
  · exact .inr (.inl ⟨_, by decide, rfl⟩)
  · exact .inr (.inl ⟨_, by decide, rfl⟩)
  · exact .inr (.inl ⟨_, by decide, rfl⟩)
  · exact .inr (.inl ⟨_, by decide, rfl⟩)
  · next hquote hslash =>
    split
    · next hprintable => exact .inl ⟨rfl, hquote, hslash, hprintable⟩
    · exact .inr (.inr (List.append_assoc _ _ _))

theorem letters_inj : ∀ p ∈ letters, ∀ q ∈ letters, p.2 = q.2 → p.1 = q.1 := by decide

theorem letters_ne : ∀ p ∈ letters, p.2 ≠ 'u' := by decide

theorem stop_notMem_hex (n : Nat) : '\x7d' ∉ hex n := by
  intro h
  obtain ⟨d, -, hd⟩ := exists_of_mem_hex h
  exact Nat.digitChar_ne '\x7d' rfl hd.symm

theorem delimits_quotedChar : Delimits (fun _ => True) quotedChar := by
  intro c d s t _ _ h
  rcases quotedChar_cases c with ⟨hc, -, hslash, -⟩ | ⟨e, he, hc⟩ | hc <;>
    rcases quotedChar_cases d with ⟨hd, -, hslash', -⟩ | ⟨e', he', hd⟩ | hd <;>
    rw [hc, hd] at h <;>
    simp only [List.cons_append, List.nil_append, List.append_assoc, List.cons.injEq] at h
  · exact h
  · exact absurd h.1 hslash
  · exact absurd h.1 hslash
  · exact absurd h.1.symm hslash'
  · exact ⟨letters_inj _ he _ he' h.2.1, h.2.2⟩
  · exact absurd h.2.1 (letters_ne _ he)
  · exact absurd h.1.symm hslash'
  · exact absurd h.2.1.symm (letters_ne _ he')
  · obtain ⟨hhex, hrest⟩ := delimits_terminated '\x7d' _ _ s t (stop_notMem_hex _)
      (stop_notMem_hex _) (by simpa using h.2.2.2)
    exact ⟨Char.toNat_inj.mp (hex_inj hhex), hrest⟩

/-- No character is written like the closing quote. -/
theorem head?_quotedChar (c : Char) : ∃ d cs, quotedChar c = d :: cs ∧ d ≠ '"' := by
  rcases quotedChar_cases c with ⟨hc, hquote, -⟩ | ⟨e, -, hc⟩ | hc
  · exact ⟨c, [], hc, hquote⟩
  · exact ⟨'\\', [e], hc, by decide⟩
  · exact ⟨'\\', _, hc, by decide⟩

/-- The closing quote of a text is the only one that can be taken for it. -/
theorem delimits_quoted : Delimits (fun _ => True) fun text => (quoted text).toList := by
  intro v w s t _ _ h
  have hend : ∀ (s : List Char) (c : Char) (u : List Char), True →
      '"' :: s ≠ quotedChar c ++ u := by
    intro s c u _ heq
    obtain ⟨d, cs, hc, hd⟩ := head?_quotedChar c
    rw [hc] at heq
    exact hd (List.cons.inj heq).1.symm
  have heq : v.toList.flatMap quotedChar ++ '"' :: s = w.toList.flatMap quotedChar ++ '"' :: t := by
    simpa [quoted] using h
  obtain ⟨hchars, hrest⟩ := delimits_quotedChar.flatMap (hend s) (hend t) (fun _ _ => trivial)
    (fun _ _ => trivial) heq
  exact ⟨String.toList_inj.mp hchars, (List.cons.inj hrest).2⟩

theorem quoted_inj {v w : String} (h : quoted v = quoted w) : v = w := by
  have hchars : (quoted v).toList ++ [] = (quoted w).toList ++ [] := by rw [h]
  exact (delimits_quoted v w [] [] trivial trivial hchars).1

theorem isPrintable_of_mem_hex (h : c ∈ hex n) : isPrintable c := by
  obtain ⟨d, hd, rfl⟩ := exists_of_mem_hex h
  have hdigits : ∀ d < 16, isPrintable (Nat.digitChar d) := by decide
  exact hdigits d hd

theorem isPrintable_of_mem_quotedChar (h : d ∈ quotedChar c) : isPrintable d := by
  rcases quotedChar_cases c with ⟨hc, -, -, hprintable⟩ | ⟨e, he, hc⟩ | hc <;> rw [hc] at h
  · rwa [List.mem_singleton.mp h]
  · have hletters : ∀ p ∈ letters, isPrintable p.2 := by decide
    rcases List.mem_pair.mp h with rfl | rfl
    · decide
    · exact hletters _ he
  · have hopening : ∀ d ∈ ['\\', 'u', '\x7b'], isPrintable d := List.all_eq_true.mp (by decide)
    rcases List.mem_append.mp h with h | h
    · exact hopening d h
    · rcases List.mem_append.mp h with h | h
      · exact isPrintable_of_mem_hex h
      · exact List.mem_singleton.mp h ▸ by decide

/-- A quoted text is made of characters that stand for themselves. -/
theorem isPrintable_of_mem_quoted {text : String} (h : c ∈ (quoted text).toList) :
    isPrintable c := by
  rw [quoted, String.toList_ofList, List.mem_append, List.mem_cons, List.mem_flatMap] at h
  obtain (rfl | ⟨d, -, h⟩) | h := h
  · decide
  · exact isPrintable_of_mem_quotedChar h
  · exact List.mem_singleton.mp h ▸ by decide

end Text

end FlatScope
