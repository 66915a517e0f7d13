import FlatScope.Proofs.Descending
import FlatScope.Proofs.Lossless

/-!
# Colour

In a coloured dump every part of a line is between two escape sequences. A dump of a parsed source
has none of its own, as all its characters are printable (`escape_notMem_dump`). So `strip`, which
deletes all sequences, gives back the dump without colour (`strip_dump`).
-/

namespace FlatScope

namespace Dump

/-! ## Deleting escape sequences -/

/-- The length of the sequence that a text begins with: `ESC [`, digits and `m`. Zero if none. -/
def sequenceLength : List Char → Nat
  | '\x1b' :: '[' :: cs =>
    let digits := cs.takeWhile Char.isDigit
    if digits ≠ [] ∧ (cs.drop digits.length).head? = some 'm' then digits.length + 3 else 0
  | _ => 0

/-- The text behind the first `skip` characters without its sequences. -/
def stripFrom : Nat → List Char → List Char
  | _, [] => []
  | skip + 1, _ :: cs => stripFrom skip cs
  | 0, c :: cs =>
    match sequenceLength (c :: cs) with
    | 0 => c :: stripFrom 0 cs
    | length + 1 => stripFrom length cs

def strip (text : String) : String := String.ofList (stripFrom 0 text.toList)

/-- Whatever stands behind `cs`, what is left of it is `ds`. -/
def Strips (cs ds : List Char) : Prop :=
  ∀ rest, stripFrom 0 (cs ++ rest) = ds ++ stripFrom 0 rest

variable {cs cs' ds ds' : List Char}

theorem Strips.append (h : Strips cs ds) (h' : Strips cs' ds') :
    Strips (cs ++ cs') (ds ++ ds') := by
  intro rest
  rw [List.append_assoc, h, h', List.append_assoc]

theorem Strips.flatMap {α : Type} {f g : α → List Char} {as : List α}
    (h : ∀ a ∈ as, Strips (f a) (g a)) : Strips (as.flatMap f) (as.flatMap g) := by
  induction as with
  | nil => exact fun _ => rfl
  | cons a as ih =>
    obtain ⟨hhead, htail⟩ := List.forall_mem_cons.mp h
    rw [List.flatMap_cons, List.flatMap_cons]
    exact hhead.append (ih htail)

theorem Strips.strip_eq {s t : String} (h : Strips s.toList t.toList) : strip s = t := by
  have hall := h []
  rw [List.append_nil, show stripFrom 0 [] = [] from rfl, List.append_nil] at hall
  rw [strip, hall, String.ofList_toList]

theorem sequenceLength_of_ne {c : Char} (h : c ≠ '\x1b') (cs : List Char) :
    sequenceLength (c :: cs) = 0 := by
  unfold sequenceLength
  split
  · next heq => exact absurd (List.cons.inj heq).1 h
  · rfl

theorem stripFrom_append (cs rest : List Char) :
    stripFrom cs.length (cs ++ rest) = stripFrom 0 rest := by
  induction cs with
  | nil => rfl
  | cons c cs ih => exact ih

theorem strips_self (h : '\x1b' ∉ cs) : Strips cs cs := by
  intro rest
  induction cs with
  | nil => rfl
  | cons c cs ih =>
    have hc : c ≠ '\x1b' := (List.ne_of_not_mem_cons h).symm
    rw [List.cons_append, stripFrom, sequenceLength_of_ne hc, ih (List.not_mem_of_not_mem_cons h)]
    rfl

theorem strips_sequence {digits : List Char} (hne : digits ≠ []) (h : ∀ c ∈ digits, c.isDigit) :
    Strips ('\x1b' :: '[' :: (digits ++ ['m'])) [] := by
  intro rest
  have htake : (digits ++ 'm' :: rest).takeWhile Char.isDigit = digits := by
    rw [List.takeWhile_append_of_pos h, List.takeWhile_cons_of_neg (by decide), List.append_nil]
  have hlength : sequenceLength ('\x1b' :: '[' :: (digits ++ 'm' :: rest)) = digits.length + 3 := by
    rw [sequenceLength, htake, List.drop_left, if_pos ⟨hne, rfl⟩]
  show stripFrom 0 ('\x1b' :: '[' :: ((digits ++ ['m']) ++ rest)) = _
  rw [← List.append_cons, stripFrom, hlength]
  have hskip := stripFrom_append ('[' :: (digits ++ ['m'])) rest
  rw [List.length_cons, List.length_append, List.length_singleton, List.cons_append,
    ← List.append_cons] at hskip
  exact hskip

/-- What only looks like a sequence stays. -/
example : strip "\x1b[33ma\x1b[m\x1b\x1b[0m[1mb" = "a\x1b[m\x1b[1mb" := by decide +kernel

/-! ## Painted parts -/

theorem renew_eq_self (on : List Char) (h : '\x1b' ∉ cs) : renew on cs = cs := by
  induction cs with
  | nil => rfl
  | cons c cs ih =>
    rw [renew, ih (List.not_mem_of_not_mem_cons h)]
    exact fun rest heq => absurd heq.symm (List.ne_of_not_mem_cons h)

/-- The sequence that switches a colour on, and off if its number is zero. -/
theorem strips_switch (n : Nat) : Strips ("\x1b[" ++ toString n ++ "m").toList [] := by
  have hdigits : ∀ c ∈ Nat.toDigits 10 n, c.isDigit :=
    fun c hc => Nat.isDigit_of_mem_toDigits (by decide) (by decide) hc
  have htext : ("\x1b[" ++ toString n ++ "m").toList =
      '\x1b' :: '[' :: (Nat.toDigits 10 n ++ ['m']) := by
    simp
  rw [htext]
  exact strips_sequence Nat.toDigits_ne_nil hdigits

theorem strips_paint (p : Part × String) (h : '\x1b' ∉ p.2.toList) :
    Strips (paint true p).toList (paint false p).toList := by
  obtain ⟨part, text⟩ := p
  show Strips ((("\x1b[" ++ toString part.colour ++ "m") ++ String.ofList (renew _ text.toList)) ++
    "\x1b[0m").toList text.toList
  rw [String.toList_append, String.toList_append, String.toList_ofList, renew_eq_self _ h]
  have hall := ((strips_switch part.colour).append (strips_self h)).append (strips_switch 0)
  rwa [List.nil_append, List.append_nil] at hall

/-- The text of a line up to its end. -/
theorem toList_text (colour : Bool) (depth : Nat) (p : Part × String) (ps : List (Part × String)) :
    ((Line.mk depth (p :: ps)).text colour).toList =
      List.replicate (2 * depth) ' ' ++ ((paint colour p).toList ++
        ps.flatMap fun q => ' ' :: (paint colour q).toList) ++ ['\n'] := by
  unfold Line.text
  rw [String.toList_append, String.toList_append, String.toList_ofList, List.map_cons,
    toList_intercalate_blank, List.flatMap_map]
  rfl

/-- A line that has no sequence of its own. -/
theorem Line.strips_text (line : Line) (h : '\x1b' ∉ (line.text false).toList) :
    Strips (line.text true).toList (line.text false).toList := by
  obtain ⟨depth, parts⟩ := line
  cases parts with
  | nil => exact strips_self h
  | cons p ps =>
    rw [toList_text] at h ⊢
    rw [toList_text]
    simp only [List.mem_append, List.mem_flatMap, List.mem_cons, not_or, not_exists, not_and] at h
    obtain ⟨⟨hindent, hp, hps⟩, hend⟩ := h
    have hblank : Strips [' '] [' '] := strips_self (by decide)
    have hparts := Strips.flatMap fun q hq => hblank.append (strips_paint q (hps q hq).2)
    exact ((strips_self hindent).append ((strips_paint p hp).append hparts)).append
      (strips_self (by decide))

end Dump

namespace Ast

open Dump

variable {source : Nat} {text : String} {ast : Ast} {root : NodeId}

theorem toList_dump_eq (ast : Ast) (facts : Annotations) (colour : Bool) (id : NodeId) :
    (ast.dump facts colour id).toList =
      (lines facts (ast.outline id)).flatMap fun line => (line.text colour).toList := by
  rw [dump_eq, String.toList_join, List.flatMap_map]

/-- Nothing in a parsed source shows as an escape, in whatever literal it is written. -/
theorem escape_notMem_dump (h : parse .unit source text = .ok (ast, root)) (facts : Annotations) :
    '\x1b' ∉ (ast.dump facts false root).toList := by
  obtain ⟨hshows, hlegible⟩ := legible_of_parse h
  rw [toList_dump hshows, List.mem_flatMap]
  rintro ⟨w, hw, hc⟩
  rcases List.mem_append.mp hc with hc | hc
  · exact absurd (isPrintable_of_mem_writtenAt hshows hlegible hw hc) (by decide)
  · exact absurd hc (by decide)

/--
Colour adds escape sequences only. Whatever passes have attached to the nodes of a parsed source,
its coloured dump without its sequences is the dump without colour. That has no escape in it, and
one line for every node: the lines are without line ends, and each has one behind it.
-/
theorem strip_dump (h : parse .unit source text = .ok (ast, root)) (facts : Annotations) :
    strip (ast.dump facts true root) = ast.dump facts false root ∧
      '\x1b' ∉ (ast.dump facts false root).toList ∧
      ∃ ls : List String, ls.length = (ast.descendants root).length ∧
        (∀ l ∈ ls, '\n' ∉ l.toList) ∧
        ast.dump facts false root = String.join (ls.map (· ++ "\n")) := by
  have hescape := escape_notMem_dump h facts
  refine ⟨Strips.strip_eq ?_, hescape, ?_⟩
  · rw [toList_dump_eq, List.mem_flatMap] at hescape
    rw [toList_dump_eq, toList_dump_eq]
    exact Strips.flatMap fun line hline => line.strips_text fun hc => hescape ⟨line, hline, hc⟩
  · obtain ⟨hshows, hlegible⟩ := legible_of_parse h
    have hnodes : (ast.descendants root).length = ((ast.outline root).entries 0).length := by
      rw [hshows.unfolds.descendants_eq]
      refine List.filterMap_length_eq_length.mpr fun e he => ?_
      obtain ⟨n, -, hn⟩ := hshows.exists_of_mem_entries he
      exact Option.isSome_iff_exists.mpr ⟨n, hn⟩
    refine ⟨((ast.outline root).entries 0).map fun e =>
      String.ofList (writtenAt facts (poolsOf facts (ast.outline root).nodes) e), ?_, ?_, ?_⟩
    · rw [List.length_map, hnodes]
    · refine List.forall_mem_map.mpr fun e he => ?_
      rw [String.toList_ofList]
      exact lineFeed_notMem_writtenAt hshows hlegible _ (List.mem_map_of_mem he)
    · refine String.toList_inj.mp ?_
      rw [toList_dump hshows, String.toList_join, List.map_map, List.flatMap_map, List.flatMap_map]
      refine List.flatMap_congr fun e _ => ?_
      show _ = (String.ofList _ ++ "\n").toList
      rw [String.toList_append, String.toList_ofList]
      rfl

/-- A literal with an escape sequence and a line end in it, and pools and slots in the lines. -/
theorem strip_dump_literal : ∃ ast root facts pools,
    parse .unit 0 "class A \x7b int f(int x) \x7b return \"\x1b[0m\n\"; \x7d \x7d" =
        .ok (ast, root) ∧
      analyse ast root true .empty .empty = .ok (facts, pools) ∧
      ast.dump facts true root ≠ ast.dump facts false root ∧
      strip (ast.dump facts true root) = ast.dump facts false root ∧
      '\x1b' ∉ (ast.dump facts false root).toList ∧
      ∃ ls : List String, ls.length = (ast.descendants root).length ∧
        (∀ l ∈ ls, '\n' ∉ l.toList) ∧
        ast.dump facts false root = String.join (ls.map (· ++ "\n")) := by
  have hok : (match parse .unit 0
      "class A \x7b int f(int x) \x7b return \"\x1b[0m\n\"; \x7d \x7d" with
    | .ok (ast, root) =>
      match analyse ast root true .empty .empty with
      | .ok (facts, _) => decide (ast.dump facts true root ≠ ast.dump facts false root)
      | .error _ => false
    | .error _ => false) = true := by decide +kernel
  split at hok
  · next ast root h =>
    split at hok
    · next facts pools hfacts =>
      exact ⟨ast, root, facts, pools, h, hfacts, of_decide_eq_true hok, strip_dump h facts⟩
    · cases hok
  · cases hok

end Ast

end FlatScope
