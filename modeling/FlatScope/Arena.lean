/-!
# Arenas

An `Arena` hands out a `Key` for every value put into it. A key is an index with a version: when a
value is removed its index may be given out again, but with a later version, so an old key never
reaches a new value. `Key.null` reaches none at all.

`Key` and `Arena` carry the kind of thing they are about, so that the key of a pool cannot be used
where the key of a node is meant.
-/

namespace FlatScope

/-- The kinds of things that are kept in arenas. -/
inductive Entity where
  | node
  | pool

inductive Key (e : Entity) where
  | null
  | at (index version : Nat)
deriving DecidableEq, Repr, Inhabited

abbrev NodeId := Key .node

abbrev PoolId := Key .pool

/-- The index of a key; the null key has none, which counts as zero. -/
def Key.index {e : Entity} : Key e → Nat
  | null => 0
  | .at index _ => index

def Key.version {e : Entity} : Key e → Nat
  | null => 0
  | .at _ version => version

/-- Keys other than the null key are told apart by index and version. -/
theorem Key.eq_of_index {e : Entity} {key other : Key e} (h : key.index ≠ 0)
    (hindex : key.index = other.index) (hversion : key.version = other.version) : key = other := by
  match key, other with
  | .null, _ => exact absurd rfl h
  | _, .null => exact absurd hindex h
  | .at index version, .at index' version' =>
    obtain rfl : index = index' := hindex
    obtain rfl : version = version' := hversion
    rfl

/-- A key as text, for instance `2v1`. -/
def Key.text {e : Entity} : Key e → String
  | null => "null"
  | .at index version => toString index ++ "v" ++ toString version

def NodeId.text (id : NodeId) : String := "#" ++ Key.text id

def PoolId.text (id : PoolId) : String := "PoolId(" ++ Key.text id ++ ")"

/-- A place in an arena: the version of its latest value, and that value unless it was removed. -/
structure Cell (α : Type) where
  version : Nat
  value : Option α
deriving DecidableEq, Repr

/-- Cell number `index - 1` is there and holds no value. -/
def Vacant {α : Type} (cells : Array (Cell α)) (index : Nat) : Prop :=
  ∃ i version, index = i + 1 ∧ cells[i]? = some ⟨version, none⟩

theorem Vacant.set {α : Type} {cells : Array (Cell α)} {index i : Nat} (h : Vacant cells index)
    (ne : index ≠ i + 1) (c : Cell α) : Vacant (cells.setIfInBounds i c) index := by
  obtain ⟨j, version, rfl, hj⟩ := h
  refine ⟨j, version, rfl, ?_⟩
  rw [Array.getElem?_setIfInBounds_ne (by omega), hj]

/--
Cell number `i` has index `i + 1`; `free` holds indices without a value, latest first. Only such
indices are given out again.
-/
structure Arena (e : Entity) (α : Type) where
  cells : Array (Cell α) := #[]
  free : List Nat := []
  free_nodup : free.Nodup := by simp
  free_vacant : ∀ index ∈ free, Vacant cells index := by simp

namespace Arena

variable {e : Entity} {α : Type}

def empty : Arena e α := {}

/-- The cell that a key refers to, if the key's version is its latest. -/
def cell? (a : Arena e α) : Key e → Option (Cell α)
  | .null => none
  | .at 0 _ => none
  | .at (i + 1) version => a.cells[i]?.filter (·.version = version)

def get? (a : Arena e α) (key : Key e) : Option α := (a.cell? key).bind (·.value)

def contains (a : Arena e α) (key : Key e) : Bool := (a.get? key).isSome

/-- The number of values. -/
def size (a : Arena e α) : Nat := a.cells.countP (·.value.isSome)

theorem get?_eq_some {a : Arena e α} {key : Key e} {value : α} :
    a.get? key = some value ↔
      ∃ i version, key = .at (i + 1) version ∧ a.cells[i]? = some ⟨version, some value⟩ := by
  match key with
  | .null => simp [get?, cell?]
  | .at 0 _ => simp [get?, cell?]
  | .at (i + 1) version =>
    simp only [get?, cell?, Option.bind_eq_some_iff, Option.filter_eq_some_iff, decide_eq_true_eq]
    constructor
    · rintro ⟨⟨_, _⟩, ⟨hc, rfl⟩, rfl⟩
      exact ⟨i, _, rfl, hc⟩
    · rintro ⟨j, v, hk, hc⟩
      cases hk
      exact ⟨_, ⟨hc, rfl⟩, rfl⟩

/-- A key with a value is not given out again. -/
theorem index_not_mem_free {a : Arena e α} {key : Key e} {value : α}
    (h : a.get? key = some value) : key.index ∉ a.free := by
  obtain ⟨i, version, rfl, hc⟩ := get?_eq_some.mp h
  intro hm
  obtain ⟨j, v, hj, hv⟩ := a.free_vacant _ hm
  cases hj
  rw [hc] at hv
  cases hv

theorem one_le_index {a : Arena e α} {key : Key e} {value : α} (h : a.get? key = some value) :
    1 ≤ key.index := by
  obtain ⟨i, version, rfl, -⟩ := get?_eq_some.mp h
  exact Nat.le_add_left 1 i

theorem index_ne_zero {a : Arena e α} {key : Key e} {value : α} (h : a.get? key = some value) :
    key.index ≠ 0 := Nat.pos_iff_ne_zero.mp (one_le_index h)

/-- An index is in use once at a time. -/
theorem eq_of_index_eq {a : Arena e α} {key other : Key e} {value value' : α}
    (h : a.get? key = some value) (h' : a.get? other = some value')
    (eq : key.index = other.index) : key = other := by
  obtain ⟨i, version, rfl, hc⟩ := get?_eq_some.mp h
  obtain ⟨j, version', rfl, hc'⟩ := get?_eq_some.mp h'
  cases eq
  rw [hc] at hc'
  cases hc'
  rfl

/-- The version with which an index is given out. -/
def nextVersion (a : Arena e α) (index : Nat) : Nat :=
  match a.cells[index - 1]? with
  | some cell => cell.version + 2
  | none => 1

/-- Puts a value into the place freed last, or else into a new one; the value may hold its key. -/
def insert (a : Arena e α) (value : Key e → α) : Key e × Arena e α :=
  match h : a.free with
  | [] =>
    let key := Key.at (a.cells.size + 1) 1
    (key, { cells := a.cells.push ⟨1, some (value key)⟩ })
  | index :: free =>
    let key := Key.at index (a.nextVersion index)
    (key, {
      cells := a.cells.setIfInBounds (index - 1) ⟨a.nextVersion index, some (value key)⟩
      free
      free_nodup := (List.nodup_cons.mp (h ▸ a.free_nodup)).2
      free_vacant := fun j hj => by
        have nd : index ∉ free := (List.nodup_cons.mp (h ▸ a.free_nodup)).1
        obtain ⟨i, _, rfl, -⟩ := a.free_vacant index (by simp [h])
        exact (a.free_vacant j (by simp [h, hj])).set (fun eq => nd (eq ▸ hj)) _ })

/-- Changes the value at a key. -/
def modify (a : Arena e α) (key : Key e) (f : α → α) : Arena e α :=
  match h : a.get? key with
  | none => a
  | some value =>
    { a with
      cells := a.cells.setIfInBounds (key.index - 1) ⟨key.version, some (f value)⟩
      free_vacant := fun j hj => (a.free_vacant j hj).set (fun eq =>
        index_not_mem_free h (by have := one_le_index h; rwa [← show j = key.index by omega])) _ }

/-- Takes a value out; its index becomes the next to be given out. -/
def remove (a : Arena e α) (key : Key e) : Arena e α :=
  match h : a.get? key with
  | none => a
  | some value =>
    { cells := a.cells.setIfInBounds (key.index - 1) ⟨key.version, none⟩
      free := key.index :: a.free
      free_nodup := List.nodup_cons.mpr ⟨index_not_mem_free h, a.free_nodup⟩
      free_vacant := fun j hj => by
        obtain ⟨i, version, rfl, hc⟩ := get?_eq_some.mp h
        by_cases eq : j = i + 1
        · subst eq
          have : i < a.cells.size := (Array.getElem?_eq_some_iff.mp hc).1
          exact ⟨i, version, rfl, by simp [Key.index, Key.version, this]⟩
        · exact (a.free_vacant j ((List.mem_cons.mp hj).resolve_left eq)).set eq _ }

/-! ## Reading after writing -/

@[simp] theorem get?_empty (key : Key e) : (empty : Arena e α).get? key = none := by
  cases h : (empty : Arena e α).get? key with
  | none => rfl
  | some value =>
    obtain ⟨i, version, -, hc⟩ := get?_eq_some.mp h
    cases hc

theorem get?_at_of_cell {a : Arena e α} {i : Nat} {c : Cell α} (h : a.cells[i]? = some c)
    (version : Nat) :
    a.get? (.at (i + 1) version) = if c.version = version then c.value else none := by
  simp only [get?, cell?, h, Option.filter_some, decide_eq_true_eq]
  split <;> rfl

theorem get?_at_of_none {a : Arena e α} {i : Nat} (h : a.cells[i]? = none) (version : Nat) :
    a.get? (.at (i + 1) version) = none := by
  simp [get?, cell?, h]

theorem get?_at_congr {a b : Arena e α} {i : Nat} (h : a.cells[i]? = b.cells[i]?)
    (version : Nat) : a.get? (.at (i + 1) version) = b.get? (.at (i + 1) version) := by
  simp only [get?, cell?, h]

theorem get?_at_zero (a : Arena e α) (version : Nat) : a.get? (.at 0 version) = none := rfl

/-- What an insertion does: it appends a cell, or it fills the place freed last. -/
theorem insert_cases (a : Arena e α) (value : Key e → α) :
    (a.free = [] ∧ (a.insert value).2.free = [] ∧
      (a.insert value).1 = .at (a.cells.size + 1) 1 ∧
      (a.insert value).2.cells =
        a.cells.push ⟨1, some (value (.at (a.cells.size + 1) 1))⟩) ∨
    ∃ i version, i + 1 ∈ a.free ∧ a.cells[i]? = some ⟨version, none⟩ ∧
      (a.insert value).1 = .at (i + 1) (version + 2) ∧
      (a.insert value).2.cells =
        a.cells.setIfInBounds i ⟨version + 2, some (value (.at (i + 1) (version + 2)))⟩ := by
  unfold insert
  split
  · next h => exact .inl ⟨h, rfl, rfl, rfl⟩
  · next index free h =>
    obtain ⟨i, version, rfl, hc⟩ := a.free_vacant index (by simp [h])
    have hv : a.nextVersion (i + 1) = version + 2 := by simp [nextVersion, hc]
    refine .inr ⟨i, version, by simp [h], hc, ?_, ?_⟩
    · simp only [hv]
    · simp only [hv, Nat.add_sub_cancel]

/-- The key of an insertion had no value before. -/
theorem get?_insert_key (a : Arena e α) (value : Key e → α) :
    a.get? (a.insert value).1 = none := by
  rcases a.insert_cases value with ⟨-, -, hk, -⟩ | ⟨i, version, -, hc, hk, -⟩
  · rw [hk, get?_at_of_none (by simp)]
  · rw [hk, get?_at_of_cell hc, if_neg (by simp)]

theorem get?_insert (a : Arena e α) (value : Key e → α) (key : Key e) :
    (a.insert value).2.get? key =
      if key = (a.insert value).1 then some (value key) else a.get? key := by
  rcases a.insert_cases value with ⟨-, -, hk, hcells⟩ | ⟨i, version, -, hc, hk, hcells⟩ <;>
    rw [hk]
  · match key with
    | .null => rfl
    | .at 0 _ => simp [get?_at_zero]
    | .at (j + 1) v =>
      by_cases hj : j = a.cells.size
      · subst hj
        rw [get?_at_of_cell (by rw [hcells, Array.getElem?_push_size]), get?_at_of_none (by simp)]
        by_cases hv : v = 1 <;> simp [hv, eq_comm (a := 1)]
      · rw [get?_at_congr (b := a) (by rw [hcells, Array.getElem?_push, if_neg hj])]
        simp [hj]
  · have hi : i < a.cells.size := (Array.getElem?_eq_some_iff.mp hc).1
    match key with
    | .null => rfl
    | .at 0 _ => simp [get?_at_zero]
    | .at (j + 1) v =>
      by_cases hj : j = i
      · subst hj
        rw [get?_at_of_cell (by rw [hcells, Array.getElem?_setIfInBounds_self_of_lt hi]),
          get?_at_of_cell hc]
        by_cases hv : v = version + 2 <;> simp [hv, eq_comm (a := version + 2)]
      · rw [get?_at_congr (b := a) (by rw [hcells, Array.getElem?_setIfInBounds_ne (Ne.symm hj)])]
        simp [hj]

/-- What was there before an insertion is still there. -/
theorem get?_insert_of_some {a : Arena e α} {value : Key e → α} {key : Key e} {v : α}
    (h : a.get? key = some v) : (a.insert value).2.get? key = some v := by
  rw [get?_insert, if_neg, h]
  intro eq
  rw [eq, get?_insert_key] at h
  cases h

/-- Writing to the cell of a live key changes what that key reads and nothing else. -/
theorem get?_of_set {a b : Arena e α} {key : Key e} {old : α} {new : Option α}
    (h : a.get? key = some old)
    (hb : b.cells = a.cells.setIfInBounds (key.index - 1) ⟨key.version, new⟩) (other : Key e) :
    b.get? other = if other = key then new else a.get? other := by
  obtain ⟨i, version, rfl, hc⟩ := get?_eq_some.mp h
  have hi : i < a.cells.size := (Array.getElem?_eq_some_iff.mp hc).1
  simp only [Key.index, Key.version, Nat.add_sub_cancel] at hb
  match other with
  | .null => rfl
  | .at 0 _ => simp [get?_at_zero]
  | .at (j + 1) v =>
    by_cases hj : j = i
    · subst hj
      rw [get?_at_of_cell (by rw [hb, Array.getElem?_setIfInBounds_self_of_lt hi]),
        get?_at_of_cell hc]
      by_cases hv : v = version <;> simp [hv, eq_comm (a := version)]
    · rw [get?_at_congr (b := a) (by rw [hb, Array.getElem?_setIfInBounds_ne (Ne.symm hj)])]
      simp [hj]

theorem get?_modify (a : Arena e α) (key other : Key e) (f : α → α) :
    (a.modify key f).get? other =
      if other = key then (a.get? key).map f else a.get? other := by
  unfold modify
  split
  · next h => by_cases eq : other = key <;> simp [eq, h]
  · next value h => rw [get?_of_set h rfl, h]; rfl

theorem eq_of_cells_eq {a b : Arena e α} (hcells : a.cells = b.cells) (hfree : a.free = b.free) :
    a = b := by
  cases a
  cases b
  cases hcells
  cases hfree
  rfl

/-- A change that changes nothing. -/
theorem modify_of_get? {a : Arena e α} {key : Key e} {value : α} (h : a.get? key = some value)
    {f : α → α} (hf : f value = value) : a.modify key f = a := by
  obtain ⟨i, version, rfl, hc⟩ := get?_eq_some.mp h
  obtain ⟨hlt, hcell⟩ := Array.getElem?_eq_some_iff.mp hc
  unfold modify
  split
  · rfl
  · next other hother =>
    rw [h] at hother
    cases hother
    refine eq_of_cells_eq ?_ rfl
    show a.cells.setIfInBounds i ⟨version, some (f value)⟩ = a.cells
    rw [hf, Array.setIfInBounds_def, dif_pos hlt, ← hcell, Array.set_getElem_self]

theorem get?_remove (a : Arena e α) (key other : Key e) :
    (a.remove key).get? other = if other = key then none else a.get? other := by
  unfold remove
  split
  · next h => by_cases eq : other = key <;> simp [eq, h]
  · next value h => rw [get?_of_set h rfl]

/-! ## The keys in use -/

/-- The keys that have a value, in the order of their indices. -/
def keys (a : Arena e α) : List (Key e) :=
  a.cells.toList.zipIdx.filterMap fun (c, i) => c.value.map fun _ => .at (i + 1) c.version

theorem mem_keys {a : Arena e α} {key : Key e} :
    key ∈ a.keys ↔ ∃ value, a.get? key = some value := by
  simp only [keys, List.mem_filterMap, List.mem_zipIdx_iff_getElem?, Array.getElem?_toList,
    Option.map_eq_some_iff, get?_eq_some]
  constructor
  · rintro ⟨⟨⟨version, _⟩, i⟩, hc, value, rfl, rfl⟩
    exact ⟨value, i, version, rfl, hc⟩
  · rintro ⟨value, i, version, rfl, hc⟩
    exact ⟨(_, i), hc, value, rfl, rfl⟩

theorem keys_nodup (a : Arena e α) : a.keys.Nodup := by
  have hp : a.cells.toList.zipIdx.Pairwise fun x y => x.2 < y.2 := by
    rw [← List.pairwise_map (f := Prod.snd) (R := (· < ·)), List.zipIdx_map_snd]
    exact List.pairwise_lt_range'
  refine hp.filterMap _ fun x y hlt key hx key' hy => ?_
  obtain ⟨_, -, rfl⟩ := Option.map_eq_some_iff.mp hx
  obtain ⟨_, -, rfl⟩ := Option.map_eq_some_iff.mp hy
  intro eq
  simp only [Key.at.injEq] at eq
  omega

theorem length_keys (a : Arena e α) : a.keys.length = a.size := by
  rw [keys, List.length_filterMap_eq_countP, size, ← Array.countP_toList,
    ← List.zipIdx_map_fst 0 a.cells.toList, List.countP_map, List.zipIdx_map_fst]
  congr 1
  funext x
  simp

theorem keys_insert (a : Arena e α) (value : Key e → α) :
    (a.insert value).2.keys.Perm ((a.insert value).1 :: a.keys) := by
  have fresh : (a.insert value).1 ∉ a.keys := by simp [mem_keys, get?_insert_key]
  rw [List.perm_ext_iff_of_nodup (keys_nodup _) (List.nodup_cons.mpr ⟨fresh, keys_nodup a⟩)]
  intro key
  simp only [List.mem_cons, mem_keys, get?_insert]
  by_cases eq : key = (a.insert value).1 <;> simp [eq]

end Arena

end FlatScope
