import Mathlib.Data.List.ReduceOption
import Std.Data.String.ToNat
import FlatScope.Proofs.Locals
import FlatScope.Proofs.Printing

/-!
# The labels of a dump

A dump labels pools as it comes to them, but a label never changes once it is given, so every line
can be read with the labels of the whole tree (`lines_eq_map`). These number the pools in the order
in which they first occur (`numbers_labels`), whatever their keys are: a dump shows of the pools
only which nodes share one (`lines_congr`).
-/

namespace FlatScope

namespace Dump

/-! ## The order in which pools first occur -/

/-- The pools of the nodes in the order in which they first occur. -/
def poolsOf (facts : Annotations) (nodes : List Node) : List PoolId :=
  (nodes.filterMap fun n => facts.fetch .pool n.id).eraseDups

variable {facts facts' : Annotations} {o : Outline}

theorem labelled_poolsOf (facts : Annotations) (nodes : List Node) (n : Node) :
    labelled facts (poolsOf facts nodes) n = poolsOf facts (nodes ++ [n]) := by
  unfold labelled poolsOf
  rw [List.filterMap_append, List.filterMap_cons, List.filterMap_nil]
  cases facts.fetch .pool n.id with
  | none => rw [List.append_nil]
  | some pool =>
    rw [Pool.eraseDups_concat]
    simp only [List.mem_eraseDups]

/-- A pool keeps its number, however many follow. -/
theorem idxOf_poolsOf_append {nodes : List Node} {pool : PoolId}
    (h : pool ∈ poolsOf facts nodes) (more : List Node) :
    (poolsOf facts (nodes ++ more)).idxOf pool = (poolsOf facts nodes).idxOf pool := by
  unfold poolsOf at h ⊢
  rw [List.filterMap_append, List.eraseDups_append, List.idxOf_append_of_mem h]

/-- The line of a place, where `pools` have labels. -/
def line (facts : Annotations) (pools : List PoolId) : Nat × NodeId × Option Node → Line
  | (depth, id, none) => ⟨depth, [(.missing, "<missing " ++ id.text ++ ">")]⟩
  | (depth, _, some n) => ⟨depth, nodeParts facts pools n⟩

theorem linesFrom_eq_map (facts : Annotations) (before : List Node)
    (entries : List (Nat × NodeId × Option Node)) :
    linesFrom facts (poolsOf facts before) entries =
      entries.map (line facts (poolsOf facts (before ++ entries.filterMap (·.2.2)))) := by
  induction entries generalizing before with
  | nil => rfl
  | cons entry entries ih =>
    obtain ⟨depth, id, node?⟩ := entry
    cases node? with
    | none =>
      rw [linesFrom, ih]
      rfl
    | some n =>
      have hnodes : before ++ ((depth, id, some n) :: entries).filterMap (·.2.2) =
          before ++ [n] ++ entries.filterMap (·.2.2) := by
        rw [List.append_assoc]
        rfl
      have hparts : nodeParts facts (poolsOf facts (before ++ [n])) n =
          nodeParts facts (poolsOf facts (before ++ [n] ++ entries.filterMap (·.2.2))) n := by
        unfold nodeParts
        cases hpool : facts.fetch .pool n.id with
        | none => rfl
        | some pool =>
          have hmem : pool ∈ poolsOf facts (before ++ [n]) :=
            List.mem_eraseDups.mpr (List.mem_filterMap.mpr ⟨n, by simp, hpool⟩)
          simp only [Option.map_some, idxOf_poolsOf_append hmem]
      rw [linesFrom, labelled_poolsOf, ih, hparts, hnodes]
      rfl

/-- Every line can be read with the labels of the whole tree. -/
theorem lines_eq_map (facts : Annotations) (o : Outline) :
    lines facts o = (o.entries 0).map (line facts (poolsOf facts o.nodes)) :=
  linesFrom_eq_map facts [] (o.entries 0)

/-! ## Dumps of the same sharing -/

/-- The first occurrences of values are numbered by which of them are equal. -/
theorem idxOf_eraseDups_map {α β γ : Type} [DecidableEq β] [DecidableEq γ] {f : α → β} {g : α → γ}
    {l : List α} (h : ∀ a ∈ l, ∀ b ∈ l, f a = f b ↔ g a = g b) :
    (l.map f).eraseDups.length = (l.map g).eraseDups.length ∧
      ∀ a ∈ l, (l.map f).eraseDups.idxOf (f a) = (l.map g).eraseDups.idxOf (g a) := by
  induction l using List.reverseRecOn with
  | nil => exact ⟨rfl, fun a ha => absurd ha List.not_mem_nil⟩
  | append_singleton l x ih =>
    obtain ⟨hlength, hidx⟩ := ih fun a ha b hb =>
      h a (List.mem_append_left _ ha) b (List.mem_append_left _ hb)
    have hlast : ∀ a ∈ l, f a = f x ↔ g a = g x := fun a ha =>
      h a (List.mem_append_left _ ha) x (List.mem_append_right _ (List.mem_singleton_self x))
    rw [List.map_append, List.map_append, List.map_singleton, List.map_singleton,
      Pool.eraseDups_concat, Pool.eraseDups_concat]
    by_cases hold : ∃ a ∈ l, f a = f x
    · obtain ⟨a, ha, hfa⟩ := hold
      have hga := (hlast a ha).mp hfa
      rw [if_pos (List.mem_map.mpr ⟨a, ha, hfa⟩), if_pos (List.mem_map.mpr ⟨a, ha, hga⟩)]
      refine ⟨hlength, fun b hb => ?_⟩
      rcases List.mem_append.mp hb with hb | hb
      · exact hidx b hb
      · obtain rfl := List.mem_singleton.mp hb
        rw [← hfa, ← hga]
        exact hidx a ha
    · -- a value that comes for the first time has the last number
      have hf : f x ∉ l.map f := fun hm => hold (List.mem_map.mp hm)
      have hg : g x ∉ l.map g := fun hm => by
        obtain ⟨a, ha, hga⟩ := List.mem_map.mp hm
        exact hold ⟨a, ha, (hlast a ha).mpr hga⟩
      rw [if_neg hf, if_neg hg, List.length_append, List.length_append, hlength]
      refine ⟨rfl, fun b hb => ?_⟩
      rcases List.mem_append.mp hb with hb | hb
      · rw [List.idxOf_append_of_mem (List.mem_eraseDups.mpr (List.mem_map_of_mem hb)),
          List.idxOf_append_of_mem (List.mem_eraseDups.mpr (List.mem_map_of_mem hb)), hidx b hb]
      · obtain rfl := List.mem_singleton.mp hb
        rw [List.idxOf_append_of_notMem fun hm => hf (List.mem_eraseDups.mp hm),
          List.idxOf_append_of_notMem fun hm => hg (List.mem_eraseDups.mp hm), List.idxOf_cons_self,
          List.idxOf_cons_self, hlength]

/-- The pool of a node that has one. -/
def poolOf (facts : Annotations) (n : Node) : PoolId := (facts.fetch .pool n.id).getD .null

theorem fetch_eq_poolOf {n : Node} (h : (facts.fetch .pool n.id).isSome) :
    facts.fetch .pool n.id = some (poolOf facts n) := by
  obtain ⟨pool, hpool⟩ := Option.isSome_iff_exists.mp h
  unfold poolOf
  rw [hpool]
  rfl

/-- The nodes that have a pool. -/
def housed (facts : Annotations) (nodes : List Node) : List Node :=
  nodes.filter fun n => (facts.fetch .pool n.id).isSome

theorem poolsOf_eq_map (facts : Annotations) (nodes : List Node) :
    poolsOf facts nodes = ((housed facts nodes).map (poolOf facts)).eraseDups := by
  unfold poolsOf housed
  congr 1
  induction nodes with
  | nil => rfl
  | cons n nodes ih =>
    rw [List.filterMap_cons, List.filter_cons]
    cases hpool : facts.fetch .pool n.id with
    | none => exact ih
    | some pool =>
      have hsome : poolOf facts n = pool := by
        unfold poolOf
        rw [hpool]
        rfl
      simp only [Option.isSome_some, if_true, List.map_cons, ih, hsome]

section

variable {nodes : List Node}
  (hpool : ∀ n ∈ nodes, (facts'.fetch .pool n.id).isSome = (facts.fetch .pool n.id).isSome)
  (hshared : ∀ n ∈ nodes, ∀ m ∈ nodes, facts'.fetch .pool n.id = facts'.fetch .pool m.id ↔
    facts.fetch .pool n.id = facts.fetch .pool m.id)
include hpool hshared

/-- Pools that the same nodes share have the same numbers. -/
theorem idxOf_poolsOf_congr {n : Node} (hn : n ∈ nodes) (hsome : (facts.fetch .pool n.id).isSome) :
    (poolsOf facts' nodes).idxOf (poolOf facts' n) =
      (poolsOf facts nodes).idxOf (poolOf facts n) := by
  have hhoused : housed facts' nodes = housed facts nodes := List.filter_congr hpool
  rw [poolsOf_eq_map facts, poolsOf_eq_map facts', hhoused]
  refine (idxOf_eraseDups_map (l := housed facts nodes) fun n hn m hm => ?_).2 n
    (List.mem_filter.mpr ⟨hn, hsome⟩)
  obtain ⟨hn, hsomen⟩ := List.mem_filter.mp hn
  obtain ⟨hm, hsomem⟩ := List.mem_filter.mp hm
  rw [← Option.some.injEq, ← fetch_eq_poolOf ((hpool n hn).trans hsomen),
    ← fetch_eq_poolOf ((hpool m hm).trans hsomem), hshared n hn m hm, fetch_eq_poolOf hsomen,
    fetch_eq_poolOf hsomem, Option.some.injEq]

theorem nodeParts_congr {n : Node} (hn : n ∈ nodes)
    (hslot : facts'.fetch .slot n.id = facts.fetch .slot n.id) :
    nodeParts facts' (poolsOf facts' nodes) n = nodeParts facts (poolsOf facts nodes) n := by
  unfold nodeParts
  rw [hslot]
  by_cases hsome : (facts.fetch .pool n.id).isSome
  · have hidx := idxOf_poolsOf_congr hpool hshared hn hsome
    rw [fetch_eq_poolOf hsome, fetch_eq_poolOf ((hpool n hn).trans hsome)]
    simp only [Option.map_some, hidx]
  · have hnone := Option.not_isSome_iff_eq_none.mp hsome
    rw [← hpool n hn] at hsome
    rw [hnone, Option.not_isSome_iff_eq_none.mp hsome]
    rfl

end

/-- Of the pools a dump shows only which nodes have one, and which share one. -/
theorem lines_congr
    (hpool : ∀ n ∈ o.nodes, (facts'.fetch .pool n.id).isSome = (facts.fetch .pool n.id).isSome)
    (hshared : ∀ n ∈ o.nodes, ∀ m ∈ o.nodes, facts'.fetch .pool n.id = facts'.fetch .pool m.id ↔
      facts.fetch .pool n.id = facts.fetch .pool m.id)
    (hslot : ∀ n ∈ o.nodes, facts'.fetch .slot n.id = facts.fetch .slot n.id) :
    lines facts' o = lines facts o := by
  rw [lines_eq_map, lines_eq_map]
  refine List.map_congr_left fun entry hentry => ?_
  obtain ⟨depth, id, node?⟩ := entry
  cases node? with
  | none => rfl
  | some n =>
    have hn : n ∈ o.nodes := List.mem_filterMap.mpr ⟨_, hentry, rfl⟩
    exact congrArg (Line.mk depth) (nodeParts_congr hpool hshared hn (hslot n hn))

/-! ## The numbers of labels -/

/-- The label of a pool, where `pools` have labels in this order. -/
def labelOf (pools : List PoolId) (pool : PoolId) : String := "@" ++ toString (pools.idxOf pool)

theorem labelOf_inj {pools : List PoolId} {a b : PoolId} (h : a ∈ pools) :
    labelOf pools a = labelOf pools b ↔ a = b := by
  unfold labelOf
  rw [String.append_right_inj]
  exact Nat.repr_inj.trans (List.idxOf_inj h)

/-- The labels number the pools of the lines in the order in which these first occur. -/
structure Numbers (pools : List (Option PoolId)) (labels : List (Option String)) : Prop where
  length_eq : labels.length = pools.length
  /-- two lines have the same label exactly if their nodes have the same pool, -/
  same_iff : ∀ i j : Nat,
    (∃ label, labels[i]? = some (some label) ∧ labels[j]? = some (some label)) ↔
      ∃ pool, pools[i]? = some (some pool) ∧ pools[j]? = some (some pool)
  /-- and a label that is on no earlier line has the number of labels that are -/
  next : ∀ (i : Nat) (label : String), labels[i]? = some (some label) →
    (∃ j < i, labels[j]? = some (some label)) ∨
      label = "@" ++ toString (labels.take i).reduceOption.eraseDups.length

section

variable {pools : List (Option PoolId)} {i : Nat} {pool : PoolId}

theorem mem_of_getElem? (h : pools[i]? = some (some pool)) :
    pool ∈ pools.reduceOption.eraseDups :=
  List.mem_eraseDups.mpr (List.reduceOption_mem_iff.mpr (List.mem_of_getElem? h))

/-- A pool that comes for the first time has the number of pools before it. -/
theorem idxOf_of_first (h : pools[i]? = some (some pool))
    (hfirst : some pool ∉ pools.take i) :
    pools.reduceOption.eraseDups.idxOf pool = (pools.take i).reduceOption.eraseDups.length := by
  obtain ⟨hi, hget⟩ := List.getElem?_eq_some_iff.mp h
  have hpools : pools.reduceOption =
      (pools.take i).reduceOption ++ [pool] ++ (pools.drop (i + 1)).reduceOption := by
    conv_lhs => rw [← List.take_append_drop i pools, List.drop_eq_getElem_cons hi, hget]
    rw [List.reduceOption_append, List.reduceOption_cons_of_some, List.append_assoc]
    rfl
  have hnew : pool ∉ (pools.take i).reduceOption :=
    fun hm => hfirst (List.reduceOption_mem_iff.mp hm)
  have hdups : ((pools.take i).reduceOption ++ [pool]).eraseDups =
      (pools.take i).reduceOption.eraseDups ++ [pool] := by
    rw [Pool.eraseDups_concat, if_neg hnew]
  rw [hpools, List.eraseDups_append, hdups,
    List.idxOf_append_of_mem (List.mem_append_right _ (List.mem_singleton_self pool)),
    List.idxOf_append_of_notMem fun hm => hnew (List.mem_eraseDups.mp hm), List.idxOf_cons_self,
    Nat.add_zero]

theorem numbers_map_labelOf (pools : List (Option PoolId)) :
    Numbers pools (pools.map (Option.map (labelOf pools.reduceOption.eraseDups))) := by
  have hget : ∀ (i : Nat) (label : String),
      (pools.map (Option.map (labelOf pools.reduceOption.eraseDups)))[i]? = some (some label) ↔
        ∃ pool, pools[i]? = some (some pool) ∧
          labelOf pools.reduceOption.eraseDups pool = label := by
    intro i label
    rw [List.getElem?_map, Option.map_eq_some_iff]
    constructor
    · rintro ⟨pool?, hpool, hmap⟩
      obtain ⟨pool, rfl, hlabel⟩ := Option.map_eq_some_iff.mp hmap
      exact ⟨pool, hpool, hlabel⟩
    · rintro ⟨pool, hpool, rfl⟩
      exact ⟨some pool, hpool, rfl⟩
  refine ⟨List.length_map _, fun i j => ?_, fun i label h => ?_⟩
  · simp only [hget]
    constructor
    · rintro ⟨label, ⟨pool, hpool, rfl⟩, other, hother, hlabel⟩
      obtain rfl := (labelOf_inj (mem_of_getElem? hother)).mp hlabel
      exact ⟨other, hpool, hother⟩
    · rintro ⟨pool, hpool, hother⟩
      exact ⟨_, ⟨pool, hpool, rfl⟩, pool, hother, rfl⟩
  · obtain ⟨pool, hpool, rfl⟩ := (hget i label).mp h
    by_cases hold : some pool ∈ pools.take i
    · obtain ⟨j, hj⟩ := List.mem_iff_getElem?.mp hold
      rw [List.getElem?_take] at hj
      split at hj
      · next hlt => exact .inl ⟨j, hlt, (hget j _).mpr ⟨pool, hj, rfl⟩⟩
      · cases hj
    · -- as many labels as pools are on the lines before
      obtain ⟨hcount, -⟩ := idxOf_eraseDups_map (l := (pools.take i).reduceOption)
        (f := labelOf pools.reduceOption.eraseDups) (g := id) fun a ha b _ =>
          labelOf_inj (List.mem_eraseDups.mpr (List.reduceOption_mem_iff.mpr
            (List.mem_of_mem_take (List.reduceOption_mem_iff.mp ha))))
      rw [List.map_id] at hcount
      refine .inr ?_
      rw [← List.map_take, List.reduceOption_map, hcount, ← idxOf_of_first hpool hold]
      rfl

end

/-- The parts of the line of a place. -/
def placeParts (facts : Annotations) (pools : List PoolId) (p : Place) : List (Part × String) :=
  match p.node? with
  | none => [(.missing, "<missing " ++ p.id.text ++ ">")]
  | some n => nodeParts facts pools n

theorem lines_eq (facts : Annotations) (o : Outline) : lines facts o =
    (o.places [] []).map fun p => ⟨p.path.length, placeParts facts (poolsOf facts o.nodes) p⟩ := by
  have hentries := Outline.map_places [] [] o
  rw [List.length_nil] at hentries
  rw [lines_eq_map, ← hentries, List.map_map]
  refine List.map_congr_left fun p hp => ?_
  have hlen := Outline.length_above hp
  rw [List.length_nil, List.length_nil, Nat.add_zero, Nat.zero_add] at hlen
  simp only [Function.comp_apply, placeParts, ← hlen]
  cases p.node? <;> rfl

/-- The labels of the places in the order of their lines. -/
def labels (facts : Annotations) (o : Outline) : List (Option String) :=
  (o.places [] []).map fun p => (p.pool? facts).map (labelOf (poolsOf facts o.nodes))

/-- They number the pools of the places. -/
theorem numbers_labels (facts : Annotations) (o : Outline) :
    Numbers ((o.places [] []).map (·.pool? facts)) (labels facts o) := by
  have hpools : poolsOf facts o.nodes =
      ((o.places [] []).map (·.pool? facts)).reduceOption.eraseDups := by
    unfold poolsOf List.reduceOption
    rw [← Outline.filterMap_node?_places [] [], List.filterMap_filterMap, List.filterMap_map]
    rfl
  have hnumbers := numbers_map_labelOf ((o.places [] []).map (·.pool? facts))
  rw [← hpools, List.map_map] at hnumbers
  exact hnumbers

end Dump

end FlatScope
