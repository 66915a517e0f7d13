import FlatScope.Arena

/-!
# Side tables

A `SideTable` attaches values to keys of an arena without touching the arena. It has one place per
index, marked with the version of the key it was written for. A newer version takes the place over,
an older one cannot write to it, and reading asks for the very version.
-/

namespace FlatScope

structure Stamped (α : Type) where
  version : Nat
  value : α
deriving DecidableEq, Repr

/-- Place number `i` belongs to index `i + 1`. -/
structure SideTable (e : Entity) (α : Type) where
  places : Array (Option (Stamped α)) := #[]
deriving Repr

namespace SideTable

variable {e : Entity} {α : Type}

def empty : SideTable e α := {}

/-- What the place of an index holds. -/
def place? (t : SideTable e α) (index : Nat) : Option (Stamped α) :=
  match index with
  | 0 => none
  | i + 1 => (t.places[i]?).join

def fetch (t : SideTable e α) : Key e → Option α
  | .null => none
  | .at index version => ((t.place? index).filter (·.version = version)).map (·.value)

def has (t : SideTable e α) (key : Key e) : Bool := (t.fetch key).isSome

/-- The number of keys with a value. -/
def count (t : SideTable e α) : Nat := t.places.countP (·.isSome)

/-- Writes to the place of an index, making room for it first. -/
def write (t : SideTable e α) (index : Nat) (entry : Stamped α) : SideTable e α :=
  match index with
  | 0 => t
  | i + 1 =>
    ⟨(t.places ++ Array.replicate (i + 1 - t.places.size) none).setIfInBounds i (some entry)⟩

/-- Attaches a value to a key; ignored for the null key and for one that is out of date. -/
def insert (t : SideTable e α) (key : Key e) (value : α) : SideTable e α :=
  match key with
  | .null => t
  | .at index version =>
    match t.place? index with
    | some old => if version < old.version then t else t.write index ⟨version, value⟩
    | none => t.write index ⟨version, value⟩

/-- Changes the value of a key that has one. -/
def modify (t : SideTable e α) (key : Key e) (f : α → α) : SideTable e α :=
  match t.fetch key with
  | some value => t.insert key (f value)
  | none => t

/-! ## Reading after writing -/

/-- The place of the key is taken by a newer version, so that writing to the key is in vain. -/
def Outdates (t : SideTable e α) (key : Key e) : Prop :=
  ∃ old, t.place? key.index = some old ∧ key.version < old.version

theorem not_outdates_empty (key : Key e) : ¬ (empty : SideTable e α).Outdates key := by
  rintro ⟨old, hold, -⟩
  unfold place? at hold
  split at hold <;> cases hold

theorem place?_write (t : SideTable e α) {index : Nat} (h : index ≠ 0) (entry : Stamped α)
    (other : Nat) :
    (t.write index entry).place? other = if other = index then some entry else t.place? other := by
  obtain ⟨i, rfl⟩ := Nat.exists_eq_succ_of_ne_zero h
  cases other with
  | zero => rfl
  | succ j =>
    simp only [write, place?, Array.getElem?_setIfInBounds, Array.getElem?_append,
      Array.getElem?_replicate, Array.size_append, Array.size_replicate, Nat.succ_eq_add_one,
      Nat.add_right_cancel_iff]
    by_cases hij : i = j
    · have hlt : i < t.places.size + (i + 1 - t.places.size) := by omega
      rw [if_pos hij, if_pos hlt, if_pos hij.symm]
      rfl
    · rw [if_neg hij, if_neg (Ne.symm hij)]
      by_cases hj : j < t.places.size
      · rw [if_pos hj]
      · -- what was appended to make room is empty
        rw [if_neg hj, Array.getElem?_eq_none (by omega)]
        split <;> rfl

theorem fetch_eq_some {t : SideTable e α} {key : Key e} {value : α} :
    t.fetch key = some value ↔ t.place? key.index = some ⟨key.version, value⟩ := by
  match key with
  | .null => simp [fetch, place?, Key.index]
  | .at index version =>
    simp only [fetch, Key.index, Key.version, Option.map_eq_some_iff, Option.filter_eq_some_iff,
      decide_eq_true_eq]
    constructor
    · rintro ⟨old, ⟨ho, rfl⟩, rfl⟩
      exact ho
    · intro h
      exact ⟨_, ⟨h, rfl⟩, rfl⟩

theorem fetch_empty (key : Key e) : (empty : SideTable e α).fetch key = none := by
  cases hf : (empty : SideTable e α).fetch key with
  | none => rfl
  | some value =>
    rw [fetch_eq_some] at hf
    unfold place? at hf
    split at hf <;> cases hf

/-- What a key reads depends on its place alone. -/
theorem fetch_congr {t t' : SideTable e α} {key : Key e}
    (h : t.place? key.index = t'.place? key.index) : t.fetch key = t'.fetch key := by
  ext value
  rw [fetch_eq_some, fetch_eq_some, h]

theorem outdates_congr {t t' : SideTable e α} {key : Key e}
    (h : t.place? key.index = t'.place? key.index) : t.Outdates key ↔ t'.Outdates key := by
  unfold Outdates
  rw [h]

theorem insert_of_index_zero {t : SideTable e α} {key : Key e} (h : key.index = 0) (value : α) :
    t.insert key value = t := by
  match key with
  | .null => rfl
  | .at 0 _ => rfl

theorem insert_of_outdates {t : SideTable e α} {key : Key e} (h : t.Outdates key) (value : α) :
    t.insert key value = t := by
  obtain ⟨old, hold, hlt⟩ := h
  match key with
  | .null => rfl
  | .at index version =>
    have hold : t.place? index = some old := hold
    simp only [insert, hold]
    exact if_pos hlt

theorem insert_of_not_outdates {t : SideTable e α} {key : Key e} (h : ¬ t.Outdates key)
    (value : α) : t.insert key value = t.write key.index ⟨key.version, value⟩ := by
  match key with
  | .null => rfl
  | .at index version =>
    simp only [insert]
    split
    · next old hold => exact if_neg fun hlt => h ⟨old, hold, hlt⟩
    · rfl

/-- Writing to a key leaves the places of all other indices alone. -/
theorem place?_insert_of_ne (t : SideTable e α) {key : Key e} (value : α) {other : Nat}
    (ne : other ≠ key.index) : (t.insert key value).place? other = t.place? other := by
  by_cases hzero : key.index = 0
  · rw [insert_of_index_zero hzero]
  · by_cases hout : t.Outdates key
    · rw [insert_of_outdates hout]
    · rw [insert_of_not_outdates hout, place?_write t hzero, if_neg ne]

/-- Writing to a key takes its place over, unless a newer version has it. -/
theorem place?_insert (t : SideTable e α) {key : Key e} (h : key.index ≠ 0)
    (hnew : ¬ t.Outdates key) (value : α) :
    (t.insert key value).place? key.index = some ⟨key.version, value⟩ := by
  rw [insert_of_not_outdates hnew, place?_write t h, if_pos rfl]

/-- What writing to a key does to its place depends on that place alone. -/
theorem place?_insert_congr {t t' : SideTable e α} {key : Key e}
    (h : t.place? key.index = t'.place? key.index) (value : α) :
    (t.insert key value).place? key.index = (t'.insert key value).place? key.index := by
  by_cases hzero : key.index = 0
  · rw [hzero]
    rfl
  · have houtdates := outdates_congr h
    by_cases hout : t.Outdates key
    · rw [insert_of_outdates hout, insert_of_outdates (houtdates.mp hout), h]
    · rw [t.place?_insert hzero hout, t'.place?_insert hzero fun h' => hout (houtdates.mpr h')]

theorem fetch_of_outdates {t : SideTable e α} {key : Key e} (h : t.Outdates key) :
    t.fetch key = none := by
  obtain ⟨old, hold, hlt⟩ := h
  cases hf : t.fetch key with
  | none => rfl
  | some value =>
    rw [fetch_eq_some, hold] at hf
    cases hf
    exact absurd hlt (Nat.lt_irrefl _)

theorem not_outdates_of_fetch {t : SideTable e α} {key : Key e} {value : α}
    (h : t.fetch key = some value) : ¬ t.Outdates key := by
  intro hout
  rw [fetch_of_outdates hout] at h
  cases h

theorem index_ne_zero_of_fetch {t : SideTable e α} {key : Key e} {value : α}
    (h : t.fetch key = some value) : key.index ≠ 0 := by
  intro hzero
  have hplace := fetch_eq_some.mp h
  rw [hzero] at hplace
  cases hplace

theorem fetch_insert_self (t : SideTable e α) {key : Key e} (h : key.index ≠ 0)
    (hnew : ¬ t.Outdates key) (value : α) : (t.insert key value).fetch key = some value :=
  fetch_eq_some.mpr (t.place?_insert h hnew value)

theorem fetch_insert_of_ne (t : SideTable e α) {key other : Key e} (ne : other.index ≠ key.index)
    (value : α) : (t.insert key value).fetch other = t.fetch other :=
  fetch_congr (t.place?_insert_of_ne value ne)

/-! ## Writing several values -/

def insertAll (t : SideTable e α) (entries : List (Key e × α)) : SideTable e α :=
  entries.foldl (fun t entry => t.insert entry.1 entry.2) t

theorem insertAll_cons (t : SideTable e α) (entry : Key e × α) (entries : List (Key e × α)) :
    t.insertAll (entry :: entries) = (t.insert entry.1 entry.2).insertAll entries := rfl

theorem insertAll_append (t : SideTable e α) (entries entries' : List (Key e × α)) :
    t.insertAll (entries ++ entries') = (t.insertAll entries).insertAll entries' :=
  List.foldl_append

theorem place?_insertAll_of_forall_ne {entries : List (Key e × α)} (t : SideTable e α) {index : Nat}
    (h : ∀ entry ∈ entries, index ≠ entry.1.index) :
    (t.insertAll entries).place? index = t.place? index := by
  induction entries generalizing t with
  | nil => rfl
  | cons entry entries ih =>
    obtain ⟨hne, h⟩ := List.forall_mem_cons.mp h
    rw [insertAll_cons, ih (t.insert entry.1 entry.2) h,
      t.place?_insert_of_ne _ hne]

theorem fetch_insertAll_of_forall_ne {entries : List (Key e × α)} (t : SideTable e α) {key : Key e}
    (h : ∀ entry ∈ entries, key.index ≠ entry.1.index) :
    (t.insertAll entries).fetch key = t.fetch key :=
  fetch_congr (place?_insertAll_of_forall_ne t h)

/-- An index holds a value for one key only. -/
theorem eq_of_fetch {t : SideTable e α} {key other : Key e} {value value' : α}
    (h : t.fetch key = some value) (h' : t.fetch other = some value')
    (hindex : key.index = other.index) : key = other := by
  have hplace := fetch_eq_some.mp h
  rw [hindex, fetch_eq_some.mp h'] at hplace
  have hversion : other.version = key.version := congrArg Stamped.version (Option.some.inj hplace)
  exact Key.eq_of_index (index_ne_zero_of_fetch h) hindex hversion.symm

/-- What a key reads after it was written to is what was written. -/
theorem eq_of_fetch_insert {t : SideTable e α} {key : Key e} {value value' : α}
    (h : (t.insert key value).fetch key = some value') : value' = value := by
  by_cases hout : t.Outdates key
  · rw [insert_of_outdates hout, fetch_of_outdates hout] at h
    cases h
  · rw [t.fetch_insert_self (index_ne_zero_of_fetch h) hout] at h
    exact (Option.some.inj h).symm

/-- A value comes from what was written or was there before. -/
theorem fetch_insert_cases {t : SideTable e α} {key other : Key e} {value value' : α}
    (h : (t.insert key value).fetch other = some value') :
    key = other ∨ t.fetch other = some value' := by
  by_cases hindex : other.index = key.index
  · by_cases hout : t.Outdates key
    · rw [insert_of_outdates hout] at h
      exact .inr h
    · have hzero : key.index ≠ 0 := hindex ▸ index_ne_zero_of_fetch h
      exact .inl (eq_of_fetch (t.fetch_insert_self hzero hout value) h hindex.symm)
  · rw [t.fetch_insert_of_ne hindex] at h
    exact .inr h

theorem fetch_insertAll_cases {t : SideTable e α} {entries : List (Key e × α)} {key : Key e}
    {value : α} (h : (t.insertAll entries).fetch key = some value) :
    (∃ entry ∈ entries, entry.1 = key) ∨ t.fetch key = some value := by
  induction entries generalizing t with
  | nil => exact .inr h
  | cons entry entries ih =>
    rcases ih (t := t.insert entry.1 entry.2) h with ⟨other, ho, hkey⟩ | h
    · exact .inl ⟨other, List.mem_cons_of_mem _ ho, hkey⟩
    · exact (fetch_insert_cases h).imp_left fun hkey => ⟨entry, List.mem_cons_self, hkey⟩

/-- Among entries for different indices each has its own effect. -/
theorem place?_insertAll_of_mem {entries : List (Key e × α)} (t : SideTable e α)
    (nodup : (entries.map fun entry => entry.1.index).Nodup) {entry : Key e × α}
    (hmem : entry ∈ entries) :
    (t.insertAll entries).place? entry.1.index =
      (t.insert entry.1 entry.2).place? entry.1.index := by
  induction entries generalizing t with
  | nil => cases hmem
  | cons first entries ih =>
    obtain ⟨hfirst, hrest⟩ := List.nodup_cons.mp nodup
    have hne : ∀ other ∈ entries, first.1.index ≠ other.1.index :=
      fun other ho heq => hfirst (List.mem_map.mpr ⟨other, ho, heq.symm⟩)
    rw [insertAll_cons]
    rcases List.mem_cons.mp hmem with rfl | hmem
    · exact place?_insertAll_of_forall_ne _ hne
    · rw [ih (t.insert first.1 first.2) hrest hmem]
      exact place?_insert_congr (t.place?_insert_of_ne _ (hne entry hmem).symm) entry.2

theorem fetch_insertAll_of_mem {entries : List (Key e × α)} (t : SideTable e α)
    (nodup : (entries.map fun entry => entry.1.index).Nodup) {key : Key e} {value : α}
    (hmem : (key, value) ∈ entries) (h : key.index ≠ 0) (hnew : ¬ t.Outdates key) :
    (t.insertAll entries).fetch key = some value := by
  rw [fetch_eq_some]
  exact (t.place?_insertAll_of_mem nodup hmem).trans (t.place?_insert h hnew value)

theorem fetch_insertAll_of_outdates {entries : List (Key e × α)} {t : SideTable e α}
    (nodup : (entries.map fun entry => entry.1.index).Nodup) {key : Key e} {value : α}
    (hmem : (key, value) ∈ entries) (h : t.Outdates key) :
    (t.insertAll entries).fetch key = none := by
  have hplace := t.place?_insertAll_of_mem nodup hmem
  rw [insert_of_outdates h] at hplace
  obtain ⟨old, hold, hlt⟩ := h
  exact fetch_of_outdates ⟨old, hplace.trans hold, hlt⟩

/-- What a key reads is what was written to it, and else what it read before. -/
theorem fetch_insertAll {entries : List (Key e × α)} (t : SideTable e α) {key : Key e}
    (nodup : (entries.map fun entry => entry.1.index).Nodup) (h : key.index ≠ 0)
    (hnew : ¬ t.Outdates key)
    (same : ∀ entry ∈ entries, entry.1.index = key.index → entry.1 = key) :
    (t.insertAll entries).fetch key = (entries.lookup key).or (t.fetch key) := by
  induction entries generalizing t with
  | nil => rfl
  | cons entry entries ih =>
    obtain ⟨hfirst, hrest⟩ := List.nodup_cons.mp nodup
    obtain ⟨hentry, hsame⟩ := List.forall_mem_cons.mp same
    by_cases heq : key = entry.1
    · subst heq
      rw [List.lookup_cons_self, Option.some_or]
      exact fetch_insertAll_of_mem t nodup List.mem_cons_self h hnew
    · have hne : key.index ≠ entry.1.index := fun hindex => heq (hentry hindex.symm).symm
      have hplace := t.place?_insert_of_ne entry.2 hne
      have hfalse : (key == entry.1) = false := beq_false_of_ne heq
      rw [insertAll_cons, ih _ hrest (fun hout => hnew ((outdates_congr hplace).mp hout)) hsame,
        fetch_congr hplace, List.lookup_cons, hfalse]

/-! ## Writing to a key more than once -/

/-- Writing to a place that is taken makes no room. -/
theorem write_of_place? {t : SideTable e α} {i : Nat} {old : Stamped α}
    (h : t.place? (i + 1) = some old) (entry : Stamped α) :
    ∃ hlt : i < t.places.size, t.places[i] = some old ∧
      t.write (i + 1) entry = ⟨t.places.set i (some entry) hlt⟩ := by
  have hget : t.places[i]? = some (some old) := Option.join_eq_some_iff.mp h
  obtain ⟨hlt, hval⟩ := Array.getElem?_eq_some_iff.mp hget
  have hroom : i + 1 - t.places.size = 0 := by omega
  refine ⟨hlt, hval, ?_⟩
  simp only [write, hroom, Array.replicate_zero, Array.append_empty, Array.setIfInBounds_def,
    dif_pos hlt]

/-- Writing what is there already changes nothing. -/
theorem insert_of_place? {t : SideTable e α} {key : Key e} {value : α}
    (h : t.place? key.index = some ⟨key.version, value⟩) : t.insert key value = t := by
  match key with
  | .null => rfl
  | .at 0 _ => rfl
  | .at (i + 1) version =>
    have hplace : t.place? (i + 1) = some ⟨version, value⟩ := h
    obtain ⟨hlt, hval, hwrite⟩ := write_of_place? hplace ⟨version, value⟩
    rw [← hval, Array.set_getElem_self] at hwrite
    simp only [insert, hplace, Nat.lt_irrefl, if_false, hwrite]

/-- Nor does writing to keys that are out of date. -/
theorem insertAll_of_forall {t : SideTable e α} {entries : List (Key e × α)}
    (h : ∀ entry ∈ entries, t.fetch entry.1 = some entry.2 ∨ t.Outdates entry.1) :
    t.insertAll entries = t := by
  induction entries with
  | nil => rfl
  | cons entry entries ih =>
    obtain ⟨hentry, hrest⟩ := List.forall_mem_cons.mp h
    rcases hentry with hfetch | hout
    · rw [insertAll_cons, insert_of_place? (fetch_eq_some.mp hfetch), ih hrest]
    · rw [insertAll_cons, insert_of_outdates hout, ih hrest]

theorem insertAll_of_fetch {t : SideTable e α} {entries : List (Key e × α)}
    (h : ∀ entry ∈ entries, t.fetch entry.1 = some entry.2) : t.insertAll entries = t :=
  insertAll_of_forall fun entry hentry => .inl (h entry hentry)

/-- Writing the same values again changes nothing. -/
theorem insertAll_insertAll (t : SideTable e α) {entries : List (Key e × α)}
    (nodup : (entries.map fun entry => entry.1.index).Nodup) :
    (t.insertAll entries).insertAll entries = t.insertAll entries := by
  suffices ∀ entries' ⊆ entries, (t.insertAll entries).insertAll entries' = t.insertAll entries from
    this entries (List.Subset.refl entries)
  intro entries' hsub
  induction entries' with
  | nil => rfl
  | cons entry entries' ih =>
    obtain ⟨hmem, hrest⟩ := List.cons_subset.mp hsub
    have hplace := t.place?_insertAll_of_mem nodup hmem
    have hself : (t.insertAll entries).insert entry.1 entry.2 = t.insertAll entries := by
      by_cases hzero : entry.1.index = 0
      · exact insert_of_index_zero hzero entry.2
      · by_cases hout : t.Outdates entry.1
        · rw [insert_of_outdates hout] at hplace
          exact insert_of_outdates ((outdates_congr hplace).mpr hout) entry.2
        · rw [t.place?_insert hzero hout] at hplace
          exact insert_of_place? hplace
    rw [insertAll_cons, hself, ih hrest]

theorem insertAll_again {t u : SideTable e α} {entries : List (Key e × α)}
    (h : u = t.insertAll entries) (nodup : (entries.map fun entry => entry.1.index).Nodup) :
    u.insertAll entries = u := by rw [h, insertAll_insertAll t nodup]

/-- Writing makes room, which is empty, and then takes one place. -/
theorem count_write (t : SideTable e α) {index : Nat} (h : index ≠ 0) (entry : Stamped α) :
    (t.write index entry).count = if (t.place? index).isSome then t.count else t.count + 1 := by
  obtain ⟨i, rfl⟩ := Nat.exists_eq_succ_of_ne_zero h
  cases hplace : t.place? (i + 1) with
  | some old =>
    obtain ⟨hlt, hval, hwrite⟩ := write_of_place? hplace entry
    have htaken : 0 < t.places.countP (·.isSome) :=
      Array.countP_pos_iff.mpr ⟨_, Array.getElem_mem hlt, by rw [hval]; rfl⟩
    simp only [Nat.succ_eq_add_one, hwrite, count, Option.isSome_some, if_true]
    rw [Array.countP_set hlt, hval]
    simp only [Option.isSome_some, if_true]
    omega
  | none =>
    have hlt : i < (t.places ++ Array.replicate (i + 1 - t.places.size) none).size := by
      rw [Array.size_append, Array.size_replicate]
      omega
    have hval : (t.places ++ Array.replicate (i + 1 - t.places.size) none)[i] = none := by
      rw [Array.getElem_append]
      split
      · next hi => simpa only [place?, Array.getElem?_eq_getElem hi, Option.join_some] using hplace
      · rw [Array.getElem_replicate]
    simp only [write, count, Array.setIfInBounds_def, dif_pos hlt]
    rw [Array.countP_set hlt, hval, Array.countP_append, Array.countP_replicate]
    simp

/-- A key that has a value does not count twice when it gets another, -/
theorem count_insert {t : SideTable e α} {key : Key e} (h : (t.fetch key).isSome) (value : α) :
    (t.insert key value).count = t.count := by
  obtain ⟨old, hold⟩ := Option.isSome_iff_exists.mp h
  rw [insert_of_not_outdates (not_outdates_of_fetch hold),
    t.count_write (index_ne_zero_of_fetch hold), fetch_eq_some.mp hold]
  exact if_pos rfl

/-- and neither do several. -/
theorem count_insertAll {t : SideTable e α} {entries : List (Key e × α)}
    (h : ∀ entry ∈ entries, (t.fetch entry.1).isSome) : (t.insertAll entries).count = t.count := by
  induction entries generalizing t with
  | nil => rfl
  | cons entry entries ih =>
    obtain ⟨hentry, hrest⟩ := List.forall_mem_cons.mp h
    rw [insertAll_cons, ih fun other ho => ?_, count_insert hentry]
    by_cases hindex : other.1.index = entry.1.index
    · obtain ⟨old, hold⟩ := Option.isSome_iff_exists.mp hentry
      obtain ⟨value, hvalue⟩ := Option.isSome_iff_exists.mp (hrest other ho)
      rw [eq_of_fetch hvalue hold hindex, t.fetch_insert_self (index_ne_zero_of_fetch hold)
        (not_outdates_of_fetch hold)]
      rfl
    · rw [t.fetch_insert_of_ne hindex]
      exact hrest other ho

/-- Writing to a key does not put a newer version into its place. -/
theorem outdates_insert_self (t : SideTable e α) {key : Key e} (h : key.index ≠ 0) (value : α) :
    (t.insert key value).Outdates key ↔ t.Outdates key := by
  by_cases hout : t.Outdates key
  · rw [insert_of_outdates hout]
  · refine iff_of_false ?_ hout
    rintro ⟨old, hold, hlt⟩
    rw [t.place?_insert h hout] at hold
    cases hold
    exact Nat.lt_irrefl _ hlt

theorem outdates_insertAll {entries : List (Key e × α)} (t : SideTable e α) {key : Key e}
    (h : key.index ≠ 0) (same : ∀ entry ∈ entries, entry.1.index = key.index → entry.1 = key) :
    (t.insertAll entries).Outdates key ↔ t.Outdates key := by
  induction entries generalizing t with
  | nil => rfl
  | cons entry entries ih =>
    obtain ⟨hentry, hrest⟩ := List.forall_mem_cons.mp same
    rw [insertAll_cons, ih (t.insert entry.1 entry.2) hrest]
    by_cases hindex : entry.1.index = key.index
    · rw [hentry hindex]
      exact t.outdates_insert_self h entry.2
    · exact outdates_congr (t.place?_insert_of_ne entry.2 (Ne.symm hindex))

/-- A key written to several times has the value written last. -/
theorem fetch_insertAll_last {before after : List (Key e × α)} (t : SideTable e α) {key : Key e}
    {value : α} (h : key.index ≠ 0) (hnew : ¬ t.Outdates key)
    (same : ∀ entry ∈ before, entry.1.index = key.index → entry.1 = key)
    (last : ∀ entry ∈ after, key.index ≠ entry.1.index) :
    (t.insertAll (before ++ (key, value) :: after)).fetch key = some value := by
  have hbefore : ¬ (t.insertAll before).Outdates key := by rwa [t.outdates_insertAll h same]
  rw [fetch_eq_some, insertAll_append]
  show (((t.insertAll before).insert key value).insertAll after).place? key.index = _
  rw [place?_insertAll_of_forall_ne _ last, place?_insert _ h hbefore]

end SideTable

end FlatScope
