import Mathlib.Data.Finset.Card
import FlatScope.Annotations

/-!
# What a series of inserts leaves

`Components` keeps one side table for each sort of component, whatever sorts there are, and values
are put into them in any order (`Components.insertAll`). Afterwards a node has the value that it was
given last, unless its index was used for a newer node (`Tabulated`); the order of the other inserts
and the other sorts have no part in it. The tables of `Annotations` are such a storage for five
sorts (`Annotations.toComponents_insertAll`).
-/

namespace FlatScope

/-! ## One sort -/

namespace SideTable

variable {e : Entity} {α : Type} {t : SideTable e α} {entries : List (Key e × α)} {key : Key e}

theorem insertAll_concat (t : SideTable e α) (entries : List (Key e × α)) (entry : Key e × α) :
    t.insertAll (entries ++ [entry]) = (t.insertAll entries).insert entry.1 entry.2 :=
  t.insertAll_append entries [entry]

theorem place?_empty (index : Nat) : (empty : SideTable e α).place? index = none := by
  cases index <;> rfl

theorem isSome_place?_insert (t : SideTable e α) (key : Key e) (value : α) (index : Nat) :
    ((t.insert key value).place? index).isSome ↔
      (t.place? index).isSome ∨ index ≠ 0 ∧ key.index = index := by
  by_cases hindex : index = key.index
  · subst hindex
    by_cases hzero : key.index = 0
    · simp [insert_of_index_zero hzero, hzero]
    · by_cases hout : t.Outdates key
      · obtain ⟨old, hold, -⟩ := id hout
        simp [insert_of_outdates hout, hold]
      · simp [t.place?_insert hzero hout, hzero]
  · rw [t.place?_insert_of_ne value hindex]
    simp [Ne.symm hindex]

/-- A place is taken as soon as a value was written for its index. -/
theorem isSome_place?_insertAll (t : SideTable e α) (entries : List (Key e × α)) (index : Nat) :
    ((t.insertAll entries).place? index).isSome ↔
      (t.place? index).isSome ∨ index ≠ 0 ∧ ∃ entry ∈ entries, entry.1.index = index := by
  induction entries generalizing t with
  | nil => simp [insertAll]
  | cons entry entries ih =>
    rw [insertAll_cons, ih, isSome_place?_insert, List.exists_mem_cons_iff]
    tauto

/-- A newer version of the key was written to. -/
def Superseded (entries : List (Key e × α)) (key : Key e) : Prop :=
  ∃ entry ∈ entries, entry.1.index = key.index ∧ key.version < entry.1.version

instance (entries : List (Key e × α)) (key : Key e) : Decidable (Superseded entries key) :=
  inferInstanceAs (Decidable (∃ entry ∈ entries, _))

theorem superseded_concat {entry : Key e × α} :
    Superseded (entries ++ [entry]) key ↔
      Superseded entries key ∨ entry.1.index = key.index ∧ key.version < entry.1.version := by
  simp only [Superseded, List.mem_append, List.mem_singleton, or_and_right, exists_or,
    exists_eq_left]

/-- In a table that was empty, a key is out of date if and only if it is superseded: an insert that
is ignored leaves a newer version where it is, and one that is not ignored leaves its own. -/
theorem outdates_insertAll_empty (h : key.index ≠ 0) :
    (empty.insertAll entries).Outdates key ↔ Superseded entries key := by
  induction entries using List.reverseRecOn generalizing key with
  | nil => simp [insertAll, not_outdates_empty, Superseded]
  | append_singleton entries entry ih =>
    rw [insertAll_concat, superseded_concat, ← ih h]
    by_cases hindex : entry.1.index = key.index
    · have hzero : entry.1.index ≠ 0 := hindex ▸ h
      by_cases hout : (empty.insertAll entries).Outdates entry.1
      · rw [insert_of_outdates hout, iff_self_or]
        obtain ⟨old, hold, hlt⟩ := hout
        intro hnewer
        exact ⟨old, hindex ▸ hold, hnewer.2.trans hlt⟩
      · have hplace := (empty.insertAll entries).place?_insert hzero hout entry.2
        constructor
        · rintro ⟨old, hold, hlt⟩
          rw [← hindex, hplace] at hold
          cases hold
          exact .inr ⟨hindex, hlt⟩
        · rintro (⟨old, hold, hlt⟩ | ⟨-, hlt⟩)
          · have hle : old.version ≤ entry.1.version :=
              Nat.le_of_not_lt fun hlt' => hout ⟨old, hindex ▸ hold, hlt'⟩
            exact ⟨_, hindex ▸ hplace, Nat.lt_of_lt_of_le hlt hle⟩
          · exact ⟨_, hindex ▸ hplace, hlt⟩
    · rw [outdates_congr (place?_insert_of_ne _ entry.2 (Ne.symm hindex))]
      simp [hindex]

/-- An index has a value for one of its keys at most. -/
theorem fetch_eq_none_of_ne {other : Key e} {value : α} (h : t.fetch key = some value)
    (hindex : other.index = key.index) (ne : other ≠ key) : t.fetch other = none :=
  Option.eq_none_iff_forall_ne_some.mpr fun _ hother => ne (eq_of_fetch hother h hindex)

/-- Writing to an older version of a key changes nothing for the key: it is ignored where the key
has a value, and where another version is in its place the key has none anyway. -/
theorem fetch_insert_of_older (t : SideTable e α) {other : Key e} (value : α)
    (hindex : other.index = key.index) (hlt : other.version < key.version) :
    (t.insert other value).fetch key = t.fetch key := by
  by_cases hzero : other.index = 0
  · rw [insert_of_index_zero hzero]
  · by_cases hout : t.Outdates other
    · rw [insert_of_outdates hout]
    · have ne : key ≠ other := by
        rintro rfl
        exact Nat.lt_irrefl _ hlt
      rw [fetch_eq_none_of_ne (t.fetch_insert_self hzero hout value) hindex.symm ne]
      refine (Option.eq_none_iff_forall_ne_some.mpr fun before hbefore => ?_).symm
      have hplace := fetch_eq_some.mp hbefore
      rw [← hindex] at hplace
      exact hout ⟨_, hplace, hlt⟩

/-- A key that is not superseded has the value that was written to it last. -/
theorem fetch_insertAll_of_not_superseded (h : key.index ≠ 0) (hnew : ¬ Superseded entries key) :
    (empty.insertAll entries).fetch key = entries.reverse.lookup key := by
  induction entries using List.reverseRecOn with
  | nil => exact fetch_empty key
  | append_singleton entries entry ih =>
    obtain ⟨hrest, hentry⟩ := not_or.mp (superseded_concat.not.mp hnew)
    rw [insertAll_concat, List.reverse_concat, List.lookup_cons]
    by_cases heq : key = entry.1
    · subst heq
      rw [fetch_insert_self _ h ((outdates_insertAll_empty h).not.mpr hrest)]
      simp
    · rw [beq_false_of_ne heq]
      refine Eq.trans ?_ (ih hrest)
      by_cases hindex : entry.1.index = key.index
      · apply fetch_insert_of_older _ _ hindex
        have hversion : entry.1.version ≠ key.version :=
          fun hv => heq (Key.eq_of_index h hindex.symm hv.symm)
        have hle : ¬ key.version < entry.1.version := fun hlt => hentry ⟨hindex, hlt⟩
        omega
      · exact fetch_insert_of_ne _ (Ne.symm hindex) _

/-- What a key reads after values were written to an empty table. -/
theorem fetch_insertAll_empty (entries : List (Key e × α)) (key : Key e) :
    (empty.insertAll entries).fetch key =
      if key.index = 0 ∨ Superseded entries key then none else entries.reverse.lookup key := by
  by_cases hzero : key.index = 0
  · rw [if_pos (.inl hzero)]
    refine Option.eq_none_iff_forall_ne_some.mpr fun value hv => ?_
    exact index_ne_zero_of_fetch hv hzero
  · by_cases hnew : Superseded entries key
    · rw [if_pos (.inr hnew)]
      exact fetch_of_outdates ((outdates_insertAll_empty hzero).mpr hnew)
    · rw [if_neg (not_or.mpr ⟨hzero, hnew⟩)]
      exact fetch_insertAll_of_not_superseded hzero hnew

/-- The indices that values were written for. -/
def indices (entries : List (Key e × α)) : Finset Nat :=
  (entries.map (·.1.index)).toFinset.erase 0

theorem mem_indices {index : Nat} :
    index ∈ indices entries ↔ index ≠ 0 ∧ ∃ entry ∈ entries, entry.1.index = index := by
  simp only [indices, Finset.mem_erase, List.mem_toFinset, List.mem_map]

theorem indices_concat (entries : List (Key e × α)) (entry : Key e × α) :
    indices (entries ++ [entry]) =
      if entry.1.index = 0 then indices entries
      else Insert.insert entry.1.index (indices entries) := by
  ext index
  split <;> simp only [mem_indices, List.mem_append, List.mem_singleton, Finset.mem_insert]
  all_goals grind

theorem count_insert_of_index_ne_zero (t : SideTable e α) (h : key.index ≠ 0) (value : α) :
    (t.insert key value).count =
      if (t.place? key.index).isSome then t.count else t.count + 1 := by
  by_cases hout : t.Outdates key
  · rw [insert_of_outdates hout]
    obtain ⟨old, hold, -⟩ := hout
    simp [hold]
  · rw [insert_of_not_outdates hout, t.count_write h]

/-- Every index that values were written for counts once, whatever versions there were. -/
theorem count_insertAll_empty (entries : List (Key e × α)) :
    (empty.insertAll entries).count = (indices entries).card := by
  induction entries using List.reverseRecOn with
  | nil => simp [insertAll, empty, count, indices]
  | append_singleton entries entry ih =>
    rw [insertAll_concat, indices_concat]
    by_cases h : entry.1.index = 0
    · rw [insert_of_index_zero h, if_pos h, ih]
    · have htaken : ((empty.insertAll entries).place? entry.1.index).isSome ↔
          entry.1.index ∈ indices entries := by
        simp [isSome_place?_insertAll, place?_empty, mem_indices]
      rw [count_insert_of_index_ne_zero _ h, if_neg h, Finset.card_insert_eq_ite, ih]
      simp only [htaken]

example : ((empty : SideTable .node Nat).insertAll
    [(.at 1 1, 7), (.at 1 3, 8), (.at 1 1, 9), (.null, 5)]).count = 1 := by decide

/-- Changing the value of a key changes what the key reads, if it reads anything, -/
theorem fetch_modify_self (t : SideTable e α) (key : Key e) (f : α → α) :
    (t.modify key f).fetch key = (t.fetch key).map f := by
  unfold modify
  cases hfetch : t.fetch key with
  | none => exact hfetch
  | some value =>
    exact t.fetch_insert_self (index_ne_zero_of_fetch hfetch) (not_outdates_of_fetch hfetch) _

/-- and no other key. -/
theorem fetch_modify_of_ne (t : SideTable e α) {other : Key e} (ne : other ≠ key) (f : α → α) :
    (t.modify key f).fetch other = t.fetch other := by
  unfold modify
  cases hfetch : t.fetch key with
  | none => rfl
  | some value =>
    by_cases hindex : other.index = key.index
    · have hself := t.fetch_insert_self (index_ne_zero_of_fetch hfetch)
        (not_outdates_of_fetch hfetch) (f value)
      exact (fetch_eq_none_of_ne hself hindex ne).trans (fetch_eq_none_of_ne hfetch hindex ne).symm
    · exact t.fetch_insert_of_ne hindex (f value)

theorem count_modify (t : SideTable e α) (key : Key e) (f : α → α) :
    (t.modify key f).count = t.count := by
  unfold modify
  cases hfetch : t.fetch key with
  | none => rfl
  | some value => exact count_insert (by rw [hfetch]; rfl) (f value)

end SideTable

/-! ## All sorts -/

/-- A side table for each sort of component. -/
structure Components (κ : Type) (Value : κ → Type) where
  table : (sort : κ) → SideTable .node (Value sort)

/-- One insert: a component of some sort for a node. -/
structure Insertion (κ : Type) (Value : κ → Type) where
  sort : κ
  id : NodeId
  value : Value sort

variable {κ : Type} [DecidableEq κ] {Value : κ → Type}

/-- What an insert writes to the table of a sort. -/
def Insertion.written? (i : Insertion κ Value) (sort : κ) : Option (NodeId × Value sort) :=
  if h : i.sort = sort then some (i.id, h ▸ i.value) else none

/-- What a series of inserts writes to the table of a sort. -/
def written (inserts : List (Insertion κ Value)) (sort : κ) : List (NodeId × Value sort) :=
  inserts.filterMap (·.written? sort)

namespace Components

def empty : Components κ Value := ⟨fun _ => .empty⟩

def fetch (c : Components κ Value) (sort : κ) (id : NodeId) : Option (Value sort) :=
  (c.table sort).fetch id

def has (c : Components κ Value) (sort : κ) (id : NodeId) : Bool := (c.table sort).has id

def count (c : Components κ Value) (sort : κ) : Nat := (c.table sort).count

/-- Changes the table of one sort. -/
def mapTable (c : Components κ Value) (sort : κ)
    (g : SideTable .node (Value sort) → SideTable .node (Value sort)) : Components κ Value :=
  ⟨Function.update c.table sort (g (c.table sort))⟩

def insert (c : Components κ Value) (i : Insertion κ Value) : Components κ Value :=
  c.mapTable i.sort (·.insert i.id i.value)

def modify (c : Components κ Value) (sort : κ) (id : NodeId) (g : Value sort → Value sort) :
    Components κ Value :=
  c.mapTable sort (·.modify id g)

def insertAll (inserts : List (Insertion κ Value)) : Components κ Value :=
  inserts.foldl insert empty

@[simp] theorem table_mapTable (c : Components κ Value) (sort : κ)
    (g : SideTable .node (Value sort) → SideTable .node (Value sort)) :
    (c.mapTable sort g).table sort = g (c.table sort) :=
  Function.update_self ..

theorem table_mapTable_of_ne (c : Components κ Value) {sort sort' : κ}
    (g : SideTable .node (Value sort) → SideTable .node (Value sort)) (ne : sort' ≠ sort) :
    (c.mapTable sort g).table sort' = c.table sort' :=
  Function.update_of_ne ne ..

/-- An insert of another sort writes nothing to the table. -/
theorem table_insert (c : Components κ Value) (i : Insertion κ Value) (sort : κ) :
    (c.insert i).table sort = (c.table sort).insertAll (i.written? sort).toList := by
  unfold Insertion.written?
  split
  · next h =>
    subst h
    exact table_mapTable ..
  · next h => exact table_mapTable_of_ne _ _ (Ne.symm h)

theorem table_insertAll (inserts : List (Insertion κ Value)) (sort : κ) :
    (insertAll inserts).table sort = SideTable.empty.insertAll (written inserts sort) := by
  induction inserts using List.reverseRecOn with
  | nil => rfl
  | append_singleton inserts i ih =>
    have hlast : written (inserts ++ [i]) sort =
        written inserts sort ++ (i.written? sort).toList := by
      rw [written, List.filterMap_append]
      rfl
    rw [hlast, SideTable.insertAll_append, ← ih, ← table_insert, insertAll, List.foldl_concat]
    rfl

theorem table_insertAll_filter (inserts : List (Insertion κ Value)) (sort : κ) :
    (insertAll (inserts.filter (·.sort = sort))).table sort = (insertAll inserts).table sort := by
  have hwritten : written (inserts.filter (·.sort = sort)) sort = written inserts sort := by
    rw [written, List.filterMap_filter]
    apply List.filterMap_congr
    intro i _
    unfold Insertion.written?
    split <;> simp_all
  rw [table_insertAll, table_insertAll, hwritten]

theorem fetch_modify_self (c : Components κ Value) (sort : κ) (id : NodeId)
    (g : Value sort → Value sort) :
    (c.modify sort id g).fetch sort id = (c.fetch sort id).map g := by
  simp only [fetch, modify, table_mapTable, SideTable.fetch_modify_self]

theorem fetch_modify_of_ne (c : Components κ Value) {sort sort' : κ} {id id' : NodeId}
    (g : Value sort → Value sort) (ne : sort' ≠ sort ∨ id' ≠ id) :
    (c.modify sort id g).fetch sort' id' = c.fetch sort' id' := by
  unfold fetch modify
  by_cases h : sort' = sort
  · subst h
    rw [table_mapTable]
    exact (c.table sort').fetch_modify_of_ne (ne.resolve_left fun hne => hne rfl) g
  · rw [table_mapTable_of_ne c _ h]

theorem count_modify (c : Components κ Value) (sort sort' : κ) (id : NodeId)
    (g : Value sort → Value sort) : (c.modify sort id g).count sort' = c.count sort' := by
  unfold count modify
  by_cases h : sort' = sort
  · subst h
    rw [table_mapTable, SideTable.count_modify]
  · rw [table_mapTable_of_ne c _ h]

end Components

/-- What a storage says, told from the inserts that led to it. Arenas give out no index 0, so it is
the null key's. -/
structure Tabulated (inserts : List (Insertion κ Value)) (c : Components κ Value) : Prop where
  fetch_eq : ∀ sort id, c.fetch sort id =
    if id.index = 0 ∨ SideTable.Superseded (written inserts sort) id then none
    else (written inserts sort).reverse.lookup id
  has_iff : ∀ sort id, c.has sort id ↔ ∃ value, c.fetch sort id = some value
  fetch_modify_eq : ∀ sort id g, (c.modify sort id g).fetch sort id = (c.fetch sort id).map g
  fetch_modify_other : ∀ sort id g sort' id', sort' ≠ sort ∨ id' ≠ id →
    (c.modify sort id g).fetch sort' id' = c.fetch sort' id'
  count_modify_eq : ∀ sort id g sort', (c.modify sort id g).count sort' = c.count sort'
  count_eq : ∀ sort, c.count sort = (SideTable.indices (written inserts sort)).card
  /-- The inserts of other sorts could as well be left out. -/
  alone : ∀ sort, c.table sort = (Components.insertAll (inserts.filter (·.sort = sort))).table sort

theorem Components.tabulated (inserts : List (Insertion κ Value)) :
    Tabulated inserts (insertAll inserts) where
  fetch_eq sort id := by
    unfold fetch
    rw [table_insertAll, SideTable.fetch_insertAll_empty]
  has_iff _ _ := Option.isSome_iff_exists
  fetch_modify_eq := fetch_modify_self _
  fetch_modify_other _ _ g _ _ ne := fetch_modify_of_ne _ g ne
  count_modify_eq sort id g sort' := count_modify _ sort sort' id g
  count_eq sort := by
    unfold count
    rw [table_insertAll, SideTable.count_insertAll_empty]
  alone sort := (table_insertAll_filter inserts sort).symm

/-! ## The sorts of facts -/

namespace Annotations

/-- The tables of all sorts of facts. -/
def toComponents (a : Annotations) : Components Fact Fact.Value := ⟨a.table⟩

theorem toComponents_mapTable (a : Annotations) (f : Fact)
    (g : SideTable .node f.Value → SideTable .node f.Value) :
    (a.mapTable f g).toComponents = a.toComponents.mapTable f g := by
  refine congrArg Components.mk (funext fun f' => ?_)
  by_cases h : f' = f
  · subst h
    exact (table_mapTable ..).trans (a.toComponents.table_mapTable ..).symm
  · exact (table_mapTable_of_ne a g h).trans (a.toComponents.table_mapTable_of_ne g h).symm

def insertAll (inserts : List (Insertion Fact Fact.Value)) : Annotations :=
  inserts.foldl (fun a i => a.insert i.sort i.id i.value) empty

theorem toComponents_insertAll (inserts : List (Insertion Fact Fact.Value)) :
    (insertAll inserts).toComponents = Components.insertAll inserts := by
  have hempty : empty.toComponents = Components.empty := by
    refine congrArg Components.mk (funext fun f => ?_)
    cases f <;> rfl
  unfold insertAll Components.insertAll
  rw [← hempty]
  refine (List.foldl_hom toComponents fun a i => ?_).symm
  exact (a.toComponents_mapTable i.sort _).symm

end Annotations

/-- Whatever sorts of components there are and whatever is put into a storage, it says what
`Tabulated` tells; and the annotations of a tree are such a storage, also when a fact is changed. -/
theorem tabulated_insertAll :
    (∀ (κ : Type) [DecidableEq κ] (Value : κ → Type) (inserts : List (Insertion κ Value)),
      Tabulated inserts (Components.insertAll inserts)) ∧
    ∀ inserts : List (Insertion Fact Fact.Value),
      (Annotations.insertAll inserts).toComponents = Components.insertAll inserts ∧
      ∀ f id g, ((Annotations.insertAll inserts).modify f id g).toComponents =
        (Components.insertAll inserts).modify f id g := by
  refine ⟨fun κ _ Value inserts => Components.tabulated inserts, fun inserts => ⟨?_, ?_⟩⟩
  · exact Annotations.toComponents_insertAll inserts
  · intro f id g
    rw [← Annotations.toComponents_insertAll]
    exact Annotations.toComponents_mapTable ..

end FlatScope
