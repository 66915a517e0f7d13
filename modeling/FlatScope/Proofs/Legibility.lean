import FlatScope.Proofs.Labels
import FlatScope.Proofs.Layout
import FlatScope.Proofs.Likeness

/-!
# Lines that can be read back

The line of a node is blanks for its depth and then words with a blank before each: the name of the
kind, the detail, the label of the pool and the slot (`toList_line`). Only the detail of a string
may have blanks in it, but it is quoted. So if no name in the node has a blank (`NodeKind.Legible`),
which no name of a parsed source has, the line is printable (`isPrintable_of_mem_written`) and says
all that it was made of (`shown_of_written`).
-/

namespace FlatScope

open Lexer

/-! ## Printable text without blanks -/

def isSolid (c : Char) : Bool := c != ' ' && Text.isPrintable c

def Unbroken (text : String) : Prop := ∀ c ∈ text.toList, isSolid c

instance (text : String) : Decidable (Unbroken text) := List.decidableBAll _ _

variable {c : Char} {s t : String}

theorem isSolid_of_isWordPart (h : isWordPart c) : isSolid c := by
  have hrange : 0x30 ≤ c.toNat ∧ c.toNat < 0x7f := by
    simp only [isWordPart, Bool.or_eq_true, beq_iff_eq] at h
    rcases h with h | rfl
    · delta Char.isAlphanum Char.isAlpha Char.isUpper Char.isLower at h
      simp only [Char.isDigit, Bool.or_eq_true, Bool.and_eq_true, decide_eq_true_eq, ge_iff_le,
        UInt32.le_iff_toNat_le] at h
      simp only [Char.toNat]
      have : '0'.val.toNat = 48 := rfl
      have : '9'.val.toNat = 57 := rfl
      have : 'A'.val.toNat = 65 := rfl
      have : 'Z'.val.toNat = 90 := rfl
      have : 'a'.val.toNat = 97 := rfl
      have : 'z'.val.toNat = 122 := rfl
      omega
    · decide
  have hblank : c ≠ ' ' := by
    rintro rfl
    exact absurd hrange (by decide)
  have hprintable : ' ' ≤ c := by
    rw [Char.le_def, UInt32.le_iff_toNat_le]
    exact Nat.le_trans (by decide) hrange.1
  rw [isSolid, Text.isPrintable, if_pos hrange.2, Bool.and_eq_true, bne_iff_ne, decide_eq_true_eq]
  exact ⟨hblank, hprintable⟩

namespace Unbroken

theorem append (hs : Unbroken s) (ht : Unbroken t) : Unbroken (s ++ t) := by
  intro c hc
  rw [String.toList_append, List.mem_append] at hc
  exact hc.elim (hs c) (ht c)

theorem blank_notMem (h : Unbroken s) : ' ' ∉ s.toList :=
  fun hc => absurd (h ' ' hc) (by decide)

theorem isPrintable (h : Unbroken s) (hc : c ∈ s.toList) : Text.isPrintable c := by
  have hsolid := h c hc
  rw [isSolid, Bool.and_eq_true] at hsolid
  exact hsolid.2

end Unbroken

/-! ## Numbers as text -/

/-- What a number is written with, be it not finite. -/
def isNumeric (c : Char) : Bool := isWordPart c || c == '-' || c == '.'

def Numeric (text : String) : Prop := ∀ c ∈ text.toList, isNumeric c

instance (text : String) : Decidable (Numeric text) := List.decidableBAll _ _

theorem isNumeric_of_mem_toDigits {n : Nat} (h : c ∈ Nat.toDigits 10 n) : isNumeric c := by
  have hdigit := Nat.isDigit_of_mem_toDigits (by decide) (by decide) h
  rw [isNumeric, isWordPart, Char.isAlphanum, hdigit]
  simp

namespace Numeric

theorem append (hs : Numeric s) (ht : Numeric t) : Numeric (s ++ t) := by
  intro c hc
  rw [String.toList_append, List.mem_append] at hc
  exact hc.elim (hs c) (ht c)

theorem unbroken (h : Numeric s) : Unbroken s := by
  intro c hc
  have hnumeric := h c hc
  simp only [isNumeric, Bool.or_eq_true, beq_iff_eq] at hnumeric
  rcases hnumeric with (hword | rfl) | rfl
  · exact isSolid_of_isWordPart hword
  · decide
  · decide

end Numeric

theorem numeric_nat (n : Nat) : Numeric (toString n) := by
  intro c hc
  rw [Nat.toString_eq_ofList_toDigits, String.toList_ofList] at hc
  exact isNumeric_of_mem_toDigits hc

theorem numeric_int (n : Int) : Numeric (toString n) := by
  cases n with
  | ofNat n => exact numeric_nat n
  | negSucc n => exact Numeric.append (s := "-") (by decide) (numeric_nat (n + 1))

namespace Binary64

theorem numeric_decimal (d : Decimal) : Numeric d.text := by
  have hzeros : ∀ n, ∀ c ∈ List.replicate n '0', isNumeric c := by
    intro n c hc
    rw [List.eq_of_mem_replicate hc]
    decide
  unfold Decimal.text
  dsimp only
  split
  · intro c hc
    rw [String.toList_ofList, List.mem_append] at hc
    exact hc.elim isNumeric_of_mem_toDigits (hzeros _ c)
  · generalize hpadded : List.replicate ((-d.exponent).toNat + 1 - _) '0' ++ _ = padded
    have hnumeric : ∀ c ∈ padded, isNumeric c := by
      intro c hc
      rw [← hpadded, List.mem_append] at hc
      exact hc.elim (hzeros _ c) isNumeric_of_mem_toDigits
    intro c hc
    rw [String.toList_ofList] at hc
    split at hc
    · exact hnumeric c (List.mem_of_mem_take hc)
    · rcases List.mem_append.mp hc with hc | hc
      · exact hnumeric c (List.mem_of_mem_take hc)
      · rcases List.mem_cons.mp hc with rfl | hc
        · decide
        · have hfraction := (List.dropWhile_suffix _).subset (List.mem_reverse.mp hc)
          exact hnumeric c (List.mem_of_mem_drop (List.mem_reverse.mp hfraction))

theorem numeric_text (x : Binary64) : Numeric x.text := by
  have hsign : Numeric (if x.isNegative then "-" else "") := by split <;> decide
  unfold text
  dsimp only
  split
  · decide
  · exact hsign.append (by decide)
  · exact hsign.append (by decide)
  · exact hsign.append (numeric_decimal _)

end Binary64

/-! ## Details -/

namespace NodeKind

/-- The detail has no blank in it unless it is quoted. -/
def Legible (k : NodeKind) : Prop := ∀ d, k.detail = some d → k.name ≠ "string" → Unbroken d

theorem unbroken_names : ∀ name ∈ names, Unbroken name ∧ name.toList ≠ [] := by decide

theorem unbroken_name (k : NodeKind) : Unbroken k.name := (unbroken_names _ k.name_mem_names).1

/-- The words that a dump has for types and operators. -/
def fixedDetails : List String :=
  ["int", "float", "string", "void", "<class>", "||", "&&", "==", "!=", "<", "<=", ">", ">=", "+",
    "-", "*", "/", "%", "!"]

/-- Unless it is quoted, a detail is a name in the node, a number or a fixed word. -/
theorem detail_of_names {P : String → Prop} {k : NodeKind}
    (names : ∀ name, Slot.named name ∈ k.layout → P name) (numbers : ∀ s, Numeric s → P s)
    (fixed : ∀ s ∈ fixedDetails, P s) (member : ∀ s, P s → P ("." ++ s))
    (call : ∀ s, P s → P (s ++ "()")) {d : String} (hd : k.detail = some d)
    (hstring : k.name ≠ "string") : P d := by
  have hcalled : ∀ name args, P name → P (called name args) := by
    intro name args hname
    cases args with
    | none => exact hname
    | some _ => exact call name hname
  cases k with
  | classDecl name _ | field _ name | function _ name _ _ | param _ name | declaration _ name
  | new name _ =>
    obtain rfl := Option.some.inj hd
    exact names name (by simp [layout])
  | type spec =>
    refine fixed d ?_
    cases spec <;> obtain rfl := Option.some.inj hd <;> decide
  | int value =>
    obtain rfl := Option.some.inj hd
    exact numbers _ (numeric_int value)
  | float value =>
    obtain rfl := Option.some.inj hd
    exact numbers _ value.numeric_text
  | string value => exact absurd rfl hstring
  | identifier name args =>
    obtain rfl := Option.some.inj hd
    exact hcalled name args (names name (by simp [layout]))
  | accessor _ name args =>
    obtain rfl := Option.some.inj hd
    exact hcalled ("." ++ name) args (member name (names name (by simp [layout])))
  | binary op _ _ =>
    refine fixed d ?_
    obtain rfl := Option.some.inj hd
    cases op <;> decide
  | unary op _ =>
    refine fixed d ?_
    obtain rfl := Option.some.inj hd
    cases op <;> decide
  | _ => cases hd

/-- Only the names in a node could have a blank. -/
theorem legible_of_names {k : NodeKind} (h : ∀ name, Slot.named name ∈ k.layout → Unbroken name) :
    k.Legible := fun _ hd hstring =>
  detail_of_names h (fun _ => Numeric.unbroken) (by decide)
    (fun _ hname => Unbroken.append (by decide) hname) (fun _ hname => hname.append (by decide))
    hd hstring

theorem eq_string_of_name {k : NodeKind} (h : k.name = "string") : ∃ value, k = string value := by
  have hidx : k.ctorIdx = (string "").ctorIdx := ctorIdx_eq_of_name h
  cases k <;> cases hidx
  exact ⟨_, rfl⟩

end NodeKind

/-! ## Lines -/

namespace Dump

/-- The words behind the detail, by the number of the pool and the slot. -/
def marks (label slot : Option Nat) : List String :=
  (label.map fun n => "@" ++ toString n).toList ++
    (slot.map fun n => ["slot", toString n]).getD []

theorem marks_inj {label slot label' slot' : Option Nat}
    (h : marks label slot = marks label' slot') : label = label' ∧ slot = slot' := by
  cases label <;> cases slot <;> cases label' <;> cases slot' <;> simp_all [marks]

theorem unbroken_marks (label slot : Option Nat) : ∀ w ∈ marks label slot, Unbroken w := by
  intro w hw
  rcases List.mem_append.mp hw with hw | hw
  · obtain ⟨n, -, rfl⟩ := Option.map_eq_some_iff.mp (Option.mem_toList.mp hw)
    exact Unbroken.append (by decide) (numeric_nat n).unbroken
  · cases slot with
    | none => cases hw
    | some n =>
      rcases List.mem_pair.mp hw with rfl | rfl
      · decide
      · exact (numeric_nat n).unbroken

/-- A word for every blank but those of the depth, if the detail is none of a string. -/
def wordsOf (facts : Annotations) (pools : List PoolId) (n : Node) : List String :=
  n.kind.detail.toList ++
    marks ((facts.fetch .pool n.id).map pools.idxOf) (facts.fetch .slot n.id)

/-- The line of a node without its end. -/
def written (facts : Annotations) (pools : List PoolId) (depth : Nat) (n : Node) : List Char :=
  List.replicate (2 * depth) ' ' ++
    (n.kind.name.toList ++ (wordsOf facts pools n).flatMap fun w => ' ' :: w.toList)

variable {facts facts' : Annotations} {pools pools' : List PoolId} {depth depth' : Nat}
  {n n' : Node}

theorem toList_intercalate_blank (w : String) (ws : List String) :
    (String.intercalate " " (w :: ws)).toList =
      w.toList ++ ws.flatMap fun w => ' ' :: w.toList := by
  induction ws generalizing w with
  | nil => exact (List.append_nil w.toList).symm
  | cons v ws ih =>
    rw [String.intercalate_cons_cons, String.toList_append, String.toList_append, ih,
      List.append_assoc]
    rfl

theorem toList_line (facts : Annotations) (pools : List PoolId) (depth : Nat) (id : NodeId)
    (n : Node) : ((line facts pools (depth, id, some n)).text false).toList =
      written facts pools depth n ++ ['\n'] := by
  unfold line Line.text nodeParts written wordsOf marks
  dsimp only
  rw [List.map_cons, String.toList_append, String.toList_append, toList_intercalate_blank,
    String.toList_ofList]
  cases n.kind.detail <;> cases facts.fetch .pool n.id <;> cases facts.fetch .slot n.id <;>
    simp [paint]

theorem isPrintable_of_mem_detail (h : n.kind.Legible) {d : String} (hd : n.kind.detail = some d)
    {c : Char} (hc : c ∈ d.toList) : Text.isPrintable c := by
  by_cases hname : n.kind.name = "string"
  · obtain ⟨value, hvalue⟩ := NodeKind.eq_string_of_name hname
    rw [hvalue] at hd
    obtain rfl := Option.some.inj hd
    exact Text.isPrintable_of_mem_quoted hc
  · exact (h d hd hname).isPrintable hc

/-- All that is written of a node can be printed as it is. -/
theorem isPrintable_of_mem_written (h : n.kind.Legible) {c : Char}
    (hc : c ∈ written facts pools depth n) : Text.isPrintable c := by
  have hblank : Text.isPrintable ' ' := by decide
  unfold written at hc
  simp only [List.mem_append, List.mem_flatMap, List.mem_cons] at hc
  obtain hc | hc | ⟨w, hw, rfl | hc⟩ := hc
  · rwa [List.eq_of_mem_replicate hc]
  · exact n.kind.unbroken_name.isPrintable hc
  · exact hblank
  · rcases List.mem_append.mp hw with hw | hw
    · exact isPrintable_of_mem_detail h (Option.mem_toList.mp hw) hc
    · exact (unbroken_marks _ _ w hw).isPrintable hc

/-- What the lines of two nodes show is the same. -/
structure Shown (facts : Annotations) (pools : List PoolId) (facts' : Annotations)
    (pools' : List PoolId) (n n' : Node) : Prop where
  name : n.kind.name = n'.kind.name
  detail : n.kind.detail = n'.kind.detail
  label : (facts.fetch .pool n.id).map pools.idxOf = (facts'.fetch .pool n'.id).map pools'.idxOf
  slot : facts.fetch .slot n.id = facts'.fetch .slot n'.id

/-- A blank behind the last word instead of one before the first. -/
theorem flatMap_blank (ws : List String) : (ws.flatMap fun w => ' ' :: w.toList) ++ [' '] =
    ' ' :: (ws.map (·.toList)).flatMap (· ++ [' ']) := by
  induction ws with
  | nil => rfl
  | cons w ws ih =>
    rw [List.flatMap_cons, List.append_assoc, ih, List.map_cons, List.flatMap_cons,
      List.append_assoc]
    rfl

/-- The words of a line, none of them broken, are told apart by the blanks. -/
theorem eq_of_blanks {vs ws : List String} (hv : ∀ v ∈ vs, Unbroken v) (hw : ∀ w ∈ ws, Unbroken w)
    (h : (vs.map (·.toList)).flatMap (· ++ [' ']) = (ws.map (·.toList)).flatMap (· ++ [' '])) :
    vs = ws := by
  have hblank : ∀ {ws : List String}, (∀ w ∈ ws, Unbroken w) →
      ∀ cs ∈ ws.map (·.toList), ' ' ∉ cs := by
    intro ws hws cs hcs
    obtain ⟨w, hw, rfl⟩ := List.mem_map.mp hcs
    exact (hws w hw).blank_notMem
  have hinj : Function.Injective String.toList := fun _ _ heq => String.toList_inj.mp heq
  exact List.map_injective_iff.mpr hinj (eq_of_terminated ' ' (hblank hv) (hblank hw) h)

theorem shown_of_words (h : n.kind.Legible) (h' : n'.kind.Legible)
    (hname : n.kind.name = n'.kind.name)
    (hwords : ((wordsOf facts pools n).map (·.toList)).flatMap (· ++ [' ']) =
      ((wordsOf facts' pools' n').map (·.toList)).flatMap (· ++ [' '])) :
    Shown facts pools facts' pools' n n' := by
  unfold wordsOf at hwords
  by_cases hstring : n.kind.name = "string"
  · -- the closing quote ends the detail
    obtain ⟨value, hvalue⟩ := NodeKind.eq_string_of_name hstring
    obtain ⟨value', hvalue'⟩ := NodeKind.eq_string_of_name (hname ▸ hstring)
    have hdetail : n.kind.detail = some (Text.quoted value) := by rw [hvalue]; rfl
    have hdetail' : n'.kind.detail = some (Text.quoted value') := by rw [hvalue']; rfl
    rw [hdetail, hdetail'] at hwords
    simp only [Option.toList_some, List.singleton_append, List.map_cons, List.flatMap_cons,
      List.append_assoc] at hwords
    obtain ⟨rfl, hrest⟩ := Text.delimits_quoted value value' _ _ trivial trivial hwords
    have hmarks := eq_of_blanks (unbroken_marks _ _) (unbroken_marks _ _) (List.cons.inj hrest).2
    obtain ⟨hlabel, hslot⟩ := marks_inj hmarks
    exact ⟨hname, hdetail.trans hdetail'.symm, hlabel, hslot⟩
  · have hunbroken : ∀ {n : Node} {facts : Annotations} {pools : List PoolId}, n.kind.Legible →
        n.kind.name ≠ "string" → ∀ w ∈ wordsOf facts pools n, Unbroken w := by
      intro n facts pools h hstring w hw
      rcases List.mem_append.mp hw with hw | hw
      · exact h w (Option.mem_toList.mp hw) hstring
      · exact unbroken_marks _ _ w hw
    have heq := eq_of_blanks (hunbroken h hstring) (hunbroken h' (hname ▸ hstring)) hwords
    -- whether there is a detail is known from the name
    have hsome : n.kind.detail.isSome = n'.kind.detail.isSome := by
      rw [NodeKind.isSome_detail, NodeKind.isSome_detail, hname]
    have hlength : n.kind.detail.toList.length = n'.kind.detail.toList.length := by
      rw [Option.length_toList, Option.length_toList, hsome]
    obtain ⟨hdetail, hmarks⟩ := List.append_inj heq hlength
    obtain ⟨hlabel, hslot⟩ := marks_inj hmarks
    have hhead := congrArg List.head? hdetail
    rw [Option.head?_toList, Option.head?_toList] at hhead
    exact ⟨hname, hhead, hlabel, hslot⟩

/-- A line says at which depth it stands and all that is shown of the node. -/
theorem shown_of_written (h : n.kind.Legible) (h' : n'.kind.Legible)
    (heq : written facts pools depth n = written facts' pools' depth' n') :
    depth = depth' ∧ Shown facts pools facts' pools' n n' := by
  have hrun : ∀ (depth : Nat) (n : Node) (rest : List Char),
      Run (· == ' ') (List.replicate (2 * depth) ' ') (n.kind.name.toList ++ rest) := by
    intro depth n rest
    obtain ⟨hsolid, hne⟩ := NodeKind.unbroken_names _ n.kind.name_mem_names
    refine ⟨fun c hc => beq_iff_eq.mpr (List.eq_of_mem_replicate hc), fun c hc => ?_⟩
    rw [List.head?_append_of_ne_nil _ hne] at hc
    exact beq_eq_false_iff_ne.mpr fun eq =>
      hsolid.blank_notMem (eq ▸ List.mem_of_mem_head? hc)
  obtain ⟨hindent, hspelled⟩ := (hrun depth n _).unique (hrun depth' n' _) heq
  have hdepth : depth = depth' := by
    have hlength := congrArg List.length hindent
    rw [List.length_replicate, List.length_replicate] at hlength
    omega
  have hended := congrArg (· ++ [' ']) hspelled
  simp only [List.append_assoc, flatMap_blank] at hended
  rw [List.append_cons n.kind.name.toList, List.append_cons n'.kind.name.toList] at hended
  obtain ⟨hname, hwords⟩ := delimits_terminated ' ' _ _ _ _ n.kind.unbroken_name.blank_notMem
    n'.kind.unbroken_name.blank_notMem hended
  exact ⟨hdepth, shown_of_words h h' (String.toList_inj.mp hname) hwords⟩

end Dump

end FlatScope
