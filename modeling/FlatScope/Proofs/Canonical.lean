import FlatScope.Proofs.Lossless

/-!
# Canonical dumps

The text of a dump does not depend on the keys of the pools, and the labels in it number the pools
in the order in which they first occur (`Ast.dump_canonical`). A label is read from the end of its
line: behind it comes at most the slot (`Dump.labelIn?`). Unless there are names with blanks or line
ends, or that begin like labels (`Dump.Plain`), nothing else in a line is taken for it.
-/

namespace FlatScope

namespace Dump

/-! ## Reading labels -/

def isNumber (word : List Char) : Bool := !word.isEmpty && word.all Char.isDigit

def label? (word : List Char) : Option String :=
  match word with
  | '@' :: digits => if isNumber digits then some (String.ofList word) else none
  | _ => none

/-- The label that words end in, the last word first; there may be a slot behind it. -/
def labelOfWords? : List (List Char) → Option String
  | last :: before :: word :: _ =>
    if isNumber last ∧ before = "slot".toList then label? word else label? last
  | last :: _ => label? last
  | [] => none

def labelIn? (line : List Char) : Option String := labelOfWords? (line.splitOn ' ').reverse

/-- The labels in a dump without colours, line by line. -/
def readLabels (text : String) : List (Option String) :=
  (text.toList.splitOn '\n').dropLast.map labelIn?

/-- The name is one word on one line, and no label. -/
def Plain (name : String) : Prop :=
  ' ' ∉ name.toList ∧ '\n' ∉ name.toList ∧ name.toList.head? ≠ some '@'

instance (name : String) : Decidable (Plain name) := inferInstanceAs (Decidable (_ ∧ _ ∧ _))

/-! ## Words and lines -/

theorem splitOn_of_notMem {a : Char} {w : List Char} (h : a ∉ w) : w.splitOn a = [w] := by
  have hw : ∀ l ∈ [w], a ∉ l := List.forall_mem_singleton.mpr h
  simpa using List.splitOn_intercalate a hw (List.cons_ne_nil w [])

theorem splitOn_indent (n : Nat) (cs : List Char) :
    (List.replicate n ' ' ++ cs).splitOn ' ' = List.replicate n [] ++ cs.splitOn ' ' := by
  induction n with
  | zero => rfl
  | succ n ih =>
    have hfirst := List.splitOn_append_cons_self (a := ' ') [] (List.replicate n ' ' ++ cs)
    rw [List.replicate_succ, List.replicate_succ, List.cons_append, List.cons_append, ← ih]
    exact hfirst

/-- Words with a blank before each. -/
theorem splitOn_words (base : List Char) {ws : List String} (h : ∀ w ∈ ws, ' ' ∉ w.toList) :
    (base ++ ws.flatMap fun w => ' ' :: w.toList).splitOn ' ' =
      base.splitOn ' ' ++ ws.map (·.toList) := by
  induction ws generalizing base with
  | nil => simp
  | cons w ws ih =>
    obtain ⟨hw, hws⟩ := List.forall_mem_cons.mp h
    have hbase := List.splitOn_append_cons_self (a := ' ') base w.toList
    rw [splitOn_of_notMem hw] at hbase
    rw [List.flatMap_cons, ← List.append_assoc, ih _ hws, hbase, List.append_assoc]
    rfl

/-- A text that does not end in a blank ends in a word. -/
theorem exists_splitOn_concat {c : Char} (hc : c ≠ ' ') (cs : List Char) :
    ∃ ws w, (cs ++ [c]).splitOn ' ' = ws ++ [w ++ [c]] := by
  by_cases hblank : ' ' ∈ cs
  · obtain ⟨front, back, hcs⟩ := List.append_of_mem hblank
    have hlt : back.length < cs.length := by
      rw [hcs, List.length_append, List.length_cons]
      omega
    obtain ⟨ws, w, hw⟩ := exists_splitOn_concat hc back
    refine ⟨front.splitOn ' ' ++ ws, w, ?_⟩
    rw [hcs, List.append_assoc, List.cons_append, List.splitOn_append_cons_self, hw,
      List.append_assoc]
  · refine ⟨[], cs, splitOn_of_notMem fun hmem => ?_⟩
    rcases List.mem_append.mp hmem with hmem | hmem
    · exact hblank hmem
    · exact hc (List.mem_singleton.mp hmem).symm
termination_by cs.length

/-- Lines that each have an end behind them are read one by one. -/
theorem dropLast_splitOn {ls : List (List Char)} (h : ∀ l ∈ ls, '\n' ∉ l) :
    ((ls.flatMap (· ++ ['\n'])).splitOn '\n').dropLast = ls := by
  induction ls with
  | nil => rfl
  | cons l ls ih =>
    obtain ⟨hl, hls⟩ := List.forall_mem_cons.mp h
    rw [List.flatMap_cons, List.append_assoc, List.singleton_append,
      List.splitOn_append_cons_self, splitOn_of_notMem hl, List.singleton_append,
      List.dropLast_cons_of_ne_nil (List.splitOn_ne_nil _ _), ih hls]

/-! ## The end of a line -/

theorem isNumber_nat (n : Nat) : isNumber (toString n).toList = true := by
  rw [Nat.toString_eq_ofList_toDigits, String.toList_ofList, isNumber, Bool.and_eq_true]
  have hdigits : ∀ c ∈ Nat.toDigits 10 n, c.isDigit := fun c hc =>
    Nat.isDigit_of_mem_toDigits (by decide) (by decide) hc
  exact ⟨by simp, List.all_eq_true.mpr hdigits⟩

theorem toList_label (n : Nat) : ("@" ++ toString n).toList = '@' :: (toString n).toList := by
  rw [String.toList_append]
  rfl

theorem isNumber_label (n : Nat) : isNumber ("@" ++ toString n).toList = false := by
  rw [toList_label]
  rfl

theorem label?_label (n : Nat) : label? ("@" ++ toString n).toList = some ("@" ++ toString n) := by
  rw [toList_label, label?, if_pos (isNumber_nat n), ← toList_label, String.ofList_toList]

theorem isNumber_concat {c : Char} (hc : c.isDigit = false) (w : List Char) :
    isNumber (w ++ [c]) = false := by
  simp [isNumber, hc]

theorem label?_concat {c : Char} (hc : c.isDigit = false) (w : List Char) :
    label? (w ++ [c]) = none := by
  unfold label?
  split
  · next digits heq =>
    refine if_neg ?_
    cases w with
    | nil =>
      obtain ⟨-, rfl⟩ := List.cons.inj heq
      decide
    | cons d w =>
      obtain ⟨-, hdigits⟩ := List.cons.inj heq
      rw [← hdigits, List.append_eq, isNumber_concat hc]
      decide
  · rfl

/-- Words that end neither in a label nor in a slot, the last one first. -/
def Inert (words : List (List Char)) : Prop :=
  ∃ last rest, words = last :: rest ∧ label? last = none ∧
    (isNumber last → rest.head? ≠ some "slot".toList)

/-- What is read from a line is the label that is written behind the rest. -/
theorem Inert.labelOfWords?_marks {words : List (List Char)} (h : Inert words)
    (label slot : Option Nat) :
    labelOfWords? (((marks label slot).map (·.toList)).reverse ++ words) =
      label.map fun n => "@" ++ toString n := by
  obtain ⟨last, rest, rfl, hlast, hslot⟩ := h
  cases slot with
  | some n =>
    cases label with
    | some k =>
      show (if isNumber (toString n).toList ∧ _ then label? ("@" ++ toString k).toList else _) = _
      rw [if_pos ⟨isNumber_nat n, rfl⟩, label?_label]
      rfl
    | none =>
      show (if isNumber (toString n).toList ∧ _ then label? last else _) = _
      rw [if_pos ⟨isNumber_nat n, rfl⟩, hlast]
      rfl
  | none =>
    cases label with
    | some k =>
      cases rest with
      | nil => exact label?_label k
      | cons before rest =>
        show (if isNumber ("@" ++ toString k).toList ∧ _ then _ else _) = _
        rw [isNumber_label, if_neg (by simp), label?_label]
        rfl
    | none =>
      match rest with
      | [] | [_] => exact hlast
      | before :: word :: rest =>
        show (if _ then _ else _) = _
        rw [if_neg fun hand => hslot hand.1 (congrArg some hand.2), hlast]
        rfl

theorem labelIn?_marks {base : List Char} (h : Inert (base.splitOn ' ').reverse)
    (label slot : Option Nat) :
    labelIn? (base ++ (marks label slot).flatMap fun w => ' ' :: w.toList) =
      label.map fun n => "@" ++ toString n := by
  have hmarks : ∀ w ∈ marks label slot, ' ' ∉ w.toList :=
    fun w hw => (unbroken_marks label slot w hw).blank_notMem
  rw [labelIn?, splitOn_words base hmarks, List.reverse_append]
  exact h.labelOfWords?_marks label slot

theorem inert_concat {c : Char} (hblank : c ≠ ' ') (hdigit : c.isDigit = false) (cs : List Char) :
    Inert ((cs ++ [c]).splitOn ' ').reverse := by
  obtain ⟨ws, w, hw⟩ := exists_splitOn_concat hblank cs
  refine ⟨w ++ [c], ws.reverse, ?_, label?_concat hdigit w, fun hnumber => ?_⟩
  · rw [hw, List.reverse_append]
    rfl
  · rw [isNumber_concat hdigit] at hnumber
    cases hnumber

theorem inert_names : ∀ name ∈ NodeKind.names,
    label? name.toList = none ∧ isNumber name.toList = false ∧ name.toList ≠ "slot".toList := by
  decide

theorem label?_of_plain {d : String} (h : Plain d) : label? d.toList = none := by
  unfold label?
  split
  · next heq => exact absurd (by rw [heq]; rfl) h.2.2
  · rfl

/-! ## Details -/

theorem plain_detail {k : NodeKind} (h : ∀ name, Slot.named name ∈ k.layout → Plain name)
    {d : String} (hd : k.detail = some d) (hstring : k.name ≠ "string") : Plain d := by
  refine NodeKind.detail_of_names h (fun s hs => ?_) (by decide) (fun s hs => ?_) (fun s hs => ?_)
    hd hstring
  · have hat : s.toList.head? ≠ some '@' := fun hhead =>
      absurd (hs '@' (List.mem_of_mem_head? hhead)) (by decide)
    exact ⟨hs.unbroken.blank_notMem, fun hend => absurd (hs _ hend) (by decide), hat⟩
  · simpa [Plain] using ⟨hs.1, hs.2.1⟩
  · obtain ⟨hblank, hend, hat⟩ := hs
    simp only [Plain, String.toList_append, List.mem_append, not_or, List.head?_append]
    refine ⟨⟨hblank, by decide⟩, ⟨hend, by decide⟩, fun hhead => ?_⟩
    cases hs : s.toList.head? with
    | none =>
      rw [hs] at hhead
      exact absurd hhead (by decide)
    | some c =>
      rw [hs] at hhead
      exact hat (hs.trans hhead)

theorem inert_written (depth : Nat) {k : NodeKind}
    (h : ∀ name, Slot.named name ∈ k.layout → Plain name) :
    Inert (((List.replicate (2 * depth) ' ' ++ (k.name.toList ++
      k.detail.toList.flatMap fun w => ' ' :: w.toList)).splitOn ' ').reverse) := by
  obtain ⟨hlabel, hnumber, hslot⟩ := inert_names k.name k.name_mem_names
  cases hd : k.detail with
  | none =>
    refine ⟨k.name.toList, (List.replicate (2 * depth) []).reverse, ?_, hlabel, fun hn => ?_⟩
    · rw [Option.toList_none, List.flatMap_nil, List.append_nil, splitOn_indent,
        splitOn_of_notMem k.unbroken_name.blank_notMem, List.reverse_append]
      rfl
    · rw [hnumber] at hn
      cases hn
  | some d =>
    by_cases hstring : k.name = "string"
    · obtain ⟨value, rfl⟩ := NodeKind.eq_string_of_name hstring
      obtain rfl := Option.some.inj hd
      have hquote := inert_concat (c := '"') (by decide) (by decide)
        (List.replicate (2 * depth) ' ' ++ ("string".toList ++ ' ' :: '"' ::
          value.toList.flatMap Text.quotedChar))
      simpa [Text.quoted, NodeKind.name] using hquote
    · have hplain := plain_detail h hd hstring
      have hwords : ∀ w ∈ [d], ' ' ∉ w.toList := List.forall_mem_singleton.mpr hplain.1
      refine ⟨d.toList, k.name.toList :: (List.replicate (2 * depth) []).reverse, ?_,
        label?_of_plain hplain, fun _ heq => hslot (Option.some.inj heq)⟩
      rw [Option.toList_some, ← List.append_assoc, splitOn_words _ hwords, splitOn_indent,
        splitOn_of_notMem k.unbroken_name.blank_notMem, List.reverse_append, List.reverse_append]
      rfl

/-! ## Lines of places -/

theorem unbroken_text (id : NodeId) : Unbroken id.text := by
  refine Unbroken.append (s := "#") (by decide) ?_
  cases id with
  | null => decide
  | «at» index version =>
    exact ((numeric_nat index).unbroken.append (by decide)).append (numeric_nat version).unbroken

/-- The line of a place with this label, if it has one. -/
def lineOf (facts : Annotations) (colour : Bool) (p : Place) (label : Option String) : String :=
  let parts := match p.node? with
    | none => [(Part.missing, "<missing " ++ p.id.text ++ ">")]
    | some n =>
      (Part.kind, n.kind.name) :: ((n.kind.detail.map ((Part.detail, ·))).toList ++
        (label.map ((Part.pool, ·))).toList ++
        ((facts.fetch .slot n.id).map fun slot => (Part.slot, "slot " ++ toString slot)).toList)
  String.ofList (List.replicate (2 * p.path.length) ' ') ++
    String.intercalate " " (parts.map (paint colour)) ++ "\n"

theorem text_eq_lineOf (facts : Annotations) (pools : List PoolId) (colour : Bool) (p : Place) :
    Line.text colour ⟨p.path.length, placeParts facts pools p⟩ =
      lineOf facts colour p ((p.pool? facts).map (labelOf pools)) := by
  unfold Line.text lineOf placeParts Place.pool?
  cases p.node? with
  | none => rfl
  | some n =>
    simp only [nodeParts, Option.bind_some, Option.map_map]
    rfl

/-- The line of a place without its end. -/
def bodyOf (facts : Annotations) (pools : List PoolId) (p : Place) : List Char :=
  match p.node? with
  | none => List.replicate (2 * p.path.length) ' ' ++ ("<missing " ++ p.id.text ++ ">").toList
  | some n => written facts pools p.path.length n

theorem toList_dump_places (ast : Ast) (facts : Annotations) (root : NodeId) :
    (ast.dump facts false root).toList = ((ast.places root).map
      (bodyOf facts (poolsOf facts (ast.outline root).nodes))).flatMap (· ++ ['\n']) := by
  rw [Ast.dump_eq, String.toList_join, lines_eq, List.map_map, List.flatMap_map, List.flatMap_map]
  refine List.flatMap_congr fun p _ => ?_
  unfold bodyOf
  simp only [Function.comp_apply, placeParts]
  cases p.node? with
  | none => simp [Line.text, paint]
  | some n => exact toList_line facts _ p.path.length n.id n

section

variable {facts : Annotations} {pools : List PoolId} {p : Place}
  (h : ∀ n, p.node? = some n → ∀ name, Slot.named name ∈ n.kind.layout → Plain name)
include h

theorem end_notMem_bodyOf : '\n' ∉ bodyOf facts pools p := by
  have hsolid : ∀ {text : String}, Unbroken text → '\n' ∉ text.toList :=
    fun htext hmem => absurd (htext _ hmem) (by decide)
  intro hmem
  unfold bodyOf at hmem
  cases hn : p.node? with
  | none =>
    simp only [hn, List.mem_append, String.toList_append] at hmem
    obtain hmem | (hmem | hmem) | hmem := hmem
    · cases List.eq_of_mem_replicate hmem
    · exact absurd hmem (by decide)
    · exact hsolid (unbroken_text p.id) hmem
    · exact absurd hmem (by decide)
  | some n =>
    simp only [hn, written, wordsOf, List.mem_append, List.mem_flatMap, List.mem_cons] at hmem
    obtain hmem | hmem | ⟨w, hw, hmem | hmem⟩ := hmem
    · cases List.eq_of_mem_replicate hmem
    · exact hsolid n.kind.unbroken_name hmem
    · cases hmem
    · rcases hw with hw | hw
      · by_cases hstring : n.kind.name = "string"
        · obtain ⟨value, hvalue⟩ := NodeKind.eq_string_of_name hstring
          rw [hvalue] at hw
          obtain rfl := Option.some.inj (Option.mem_toList.mp hw)
          exact absurd (Text.isPrintable_of_mem_quoted hmem) (by decide)
        · exact (plain_detail (h n hn) (Option.mem_toList.mp hw) hstring).2.1 hmem
      · exact hsolid (unbroken_marks _ _ w hw) hmem

theorem labelIn?_bodyOf : labelIn? (bodyOf facts pools p) =
    (p.pool? facts).map (labelOf pools) := by
  unfold bodyOf Place.pool?
  cases hn : p.node? with
  | none =>
    have hinert := inert_concat (c := '>') (by decide) (by decide)
      (List.replicate (2 * p.path.length) ' ' ++ ("<missing " ++ p.id.text).toList)
    have hread := labelIn?_marks hinert none none
    simpa [marks] using hread
  | some n =>
    have hread := labelIn?_marks (inert_written p.path.length (h n hn))
      ((facts.fetch .pool n.id).map pools.idxOf) (facts.fetch .slot n.id)
    rw [List.append_assoc, List.append_assoc, ← List.flatMap_append, Option.map_map] at hread
    exact hread

end

/-- Where names are plain the labels are at the ends of the lines. -/
theorem readLabels_dump {ast : Ast} {root : NodeId} (h : ∀ p ∈ ast.places root, ∀ n,
    p.node? = some n → ∀ name, Slot.named name ∈ n.kind.layout → Plain name)
    (facts : Annotations) :
    readLabels (ast.dump facts false root) = labels facts (ast.outline root) := by
  have hbodies : ∀ l ∈ (ast.places root).map
      (bodyOf facts (poolsOf facts (ast.outline root).nodes)), '\n' ∉ l :=
    List.forall_mem_map.mpr fun p hp => end_notMem_bodyOf (h p hp)
  rw [readLabels, toList_dump_places, dropLast_splitOn hbodies, List.map_map]
  exact List.map_congr_left fun p hp => labelIn?_bodyOf (h p hp)

/-- The names in a parsed source are plain, so the labels in its dump can be read and number the
pools, whatever is attached to its nodes. -/
theorem numbers_readLabels {source : Nat} {text : String} {ast : Ast} {root : NodeId}
    (h : Ast.parse .unit source text = .ok (ast, root)) (facts : Annotations) :
    Numbers ((ast.places root).map (·.pool? facts)) (readLabels (ast.dump facts false root)) := by
  obtain ⟨-, hnames⟩ := Ast.isWordPart_of_parse h
  rw [readLabels_dump (fun p hp n hn name hname => ?_) facts]
  · exact numbers_labels facts _
  · have hmem := Ast.mem_nodes_outline.mpr ⟨p, hp, hn⟩
    have hword := hnames n hmem name hname
    exact ⟨fun hc => absurd (hword _ hc) (by decide), fun hc => absurd (hword _ hc) (by decide),
      fun hc => absurd (hword _ (List.mem_of_mem_head? hc)) (by decide)⟩

end Dump

/-! ## Pools under other keys -/

/-- The same table with other values. -/
def SideTable.map {e : Entity} {α β : Type} (f : α → β) (t : SideTable e α) : SideTable e β where
  places := t.places.map (Option.map fun entry => ⟨entry.version, f entry.value⟩)

theorem SideTable.fetch_map {e : Entity} {α β : Type} (f : α → β) (t : SideTable e α)
    (key : Key e) : (t.map f).fetch key = (t.fetch key).map f := by
  have hplace : ∀ index, (t.map f).place? index =
      (t.place? index).map fun entry => ⟨entry.version, f entry.value⟩ := by
    intro index
    cases index with
    | zero => rfl
    | succ i =>
      simp only [place?, map, Array.getElem?_map]
      cases t.places[i]? <;> rfl
  cases key with
  | null => rfl
  | «at» index version =>
    simp only [fetch, hplace, Option.filter_map, Option.map_map]
    rfl

/-- Every pool that is attached to a node, under another key. -/
def Annotations.renamePools (f : PoolId → PoolId) (facts : Annotations) : Annotations :=
  facts.mapTable .pool (SideTable.map f)

theorem Annotations.fetch_renamePools (f : PoolId → PoolId) (facts : Annotations) (id : NodeId) :
    (facts.renamePools f).fetch .pool id = (facts.fetch .pool id).map f :=
  SideTable.fetch_map f facts.pools id

/--
A dump does not change when the pools get other keys. There are labels that number the pools in the
order in which they first occur, and what is written are the lines of the places, each with its
label; where names are plain the labels are those that a reader finds at the ends of the lines.
-/
theorem Ast.dump_canonical (ast : Ast) (facts : Annotations) (root : NodeId) {f : PoolId → PoolId}
    (hf : Function.Injective f) :
    (∀ colour, ast.dump (facts.renamePools f) colour root = ast.dump facts colour root) ∧
      ∃ labels : List (Option String),
        Dump.Numbers ((ast.places root).map (·.pool? facts)) labels ∧
        (∀ colour, ast.dump facts colour root =
          String.join (List.zipWith (Dump.lineOf facts colour) (ast.places root) labels)) ∧
        ((∀ p ∈ ast.places root, ∀ n, p.node? = some n → ∀ name, Slot.named name ∈ n.kind.layout →
          Dump.Plain name) → Dump.readLabels (ast.dump facts false root) = labels) := by
  refine ⟨fun colour => ?_, Dump.labels facts (ast.outline root), Dump.numbers_labels facts _,
    fun colour => ?_, fun hplain => ?_⟩
  · have hlines : Dump.lines (facts.renamePools f) (ast.outline root) =
        Dump.lines facts (ast.outline root) := by
      refine Dump.lines_congr (fun n _ => ?_) (fun n _ m _ => ?_) fun n _ => rfl
      · rw [Annotations.fetch_renamePools, Option.isSome_map]
      · rw [Annotations.fetch_renamePools, Annotations.fetch_renamePools]
        exact (Option.map_injective hf).eq_iff
    rw [dump_eq, dump_eq, hlines]
  · rw [dump_eq, Dump.lines_eq, Dump.labels, places, List.zipWith_map_right, List.zipWith_self,
      List.map_map]
    exact congrArg String.join (List.map_congr_left fun p _ => Dump.text_eq_lineOf ..)
  · exact Dump.readLabels_dump hplain facts

/-- Two nodes share a pool, a third has another and a reference dangles; what the second says looks
like a label, and the third is called like the mark of a slot. The keys are shifted. -/
theorem Ast.dump_canonical_shifted : ∃ (ast : Ast) (facts : Annotations) (root : NodeId)
    (f : PoolId → PoolId), Function.Injective f ∧ facts.renamePools f ≠ facts ∧
      Dump.readLabels (ast.dump facts false root) = [some "@0", some "@0", none, some "@1"] ∧
      (∀ colour, ast.dump (facts.renamePools f) colour root = ast.dump facts colour root) ∧
      ∃ labels : List (Option String),
        Dump.Numbers ((ast.places root).map (·.pool? facts)) labels ∧
        (∀ colour, ast.dump facts colour root =
          String.join (List.zipWith (Dump.lineOf facts colour) (ast.places root) labels)) ∧
        ((∀ p ∈ ast.places root, ∀ n, p.node? = some n → ∀ name, Slot.named name ∈ n.kind.layout →
          Dump.Plain name) → Dump.readLabels (ast.dump facts false root) = labels) := by
  let ast := ((((Ast.empty 0).add (.string "b @9") ⟨0, 1, 7⟩).2.add (.identifier "slot" none)
    ⟨0, 8, 12⟩).2.add (.expressions [.at 1 1, .null, .at 2 1]) ⟨0, 0, 13⟩).2
  let facts := ((Annotations.empty.insert .pool (.at 3 1) (.at 4 1)).insert .pool (.at 1 1)
    (.at 4 1)).insert .pool (.at 2 1) (.at 2 3)
  let f : PoolId → PoolId
    | .null => .null
    | .at index version => .at (index + 1) version
  have hf : Function.Injective f := by
    rintro (_ | ⟨i, v⟩) (_ | ⟨j, w⟩) h
    · rfl
    · cases h
    · cases h
    · obtain ⟨hindex, hversion⟩ := Key.at.inj h
      rw [Nat.add_right_cancel hindex, hversion]
  have hother : facts.renamePools f ≠ facts := by
    intro h
    have hfetch : ((facts.renamePools f).fetch .pool (.at 1 1) : Option PoolId) ≠
        facts.fetch .pool (.at 1 1) := by decide +kernel
    exact hfetch (by rw [h])
  exact ⟨ast, facts, .at 3 1, f, hf, hother, by decide +kernel,
    Ast.dump_canonical ast facts (.at 3 1) hf⟩

end FlatScope
