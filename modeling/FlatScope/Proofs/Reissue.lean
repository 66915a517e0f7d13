import FlatScope.Proofs.Leftovers

/-!
# Ids that are given out again

The index of a node that was removed is given out again, while its old id may still be about: what
was attached to it is still in its place, and more may be attached to it late. In a history of such
edits (`Uses`) a storage still tells nodes apart (`Uses.faithful`): a new node starts with nothing,
and what is attached to an id is seen there and nowhere else. For that it is enough that ids come
out of the arena one after another (`Arena.not_issued_insert_key`), and that no place of a side
table is marked with a version that the arena has not got to yet (`SideTable.Within`).
-/

namespace FlatScope

namespace Arena

variable {e : Entity} {α : Type} {a : Arena e α} {key : Key e}

theorem issued_insert_key (a : Arena e α) (value : Key e → α) :
    (a.insert value).2.Issued (a.insert value).1 :=
  issued_of_get? (by rw [get?_insert, if_pos rfl])

/-- A key is given out once. -/
theorem not_issued_insert_key (a : Arena e α) (value : Key e → α) :
    ¬ a.Issued (a.insert value).1 := by
  rintro ⟨i, version, cell, hk, hc, hle⟩
  rcases a.insert_cases value with ⟨-, -, hkey, -⟩ | ⟨j, old, -, hold, hkey, -⟩
  · cases hk.symm.trans hkey
    rw [Array.getElem?_eq_none (Nat.le_refl _)] at hc
    cases hc
  · cases hk.symm.trans hkey
    cases hold.symm.trans hc
    exact Nat.not_succ_le_self old (Nat.le_of_succ_le hle)

/-- Of the keys given out with an index the one with a value is the latest. -/
theorem Issued.version_lt {other : Key e} {value : α} (h : a.Issued other)
    (hkey : a.get? key = some value) (hindex : other.index = key.index) (ne : other ≠ key) :
    other.version < key.version := by
  obtain ⟨i, version, cell, rfl, hc, hle⟩ := h
  obtain ⟨j, version', rfl, hc'⟩ := get?_eq_some.mp hkey
  obtain rfl : i = j := Nat.succ.inj hindex
  cases hc.symm.trans hc'
  refine Nat.lt_of_le_of_ne hle fun heq => ne ?_
  obtain rfl : version = version' := heq
  rfl

end Arena

namespace SideTable

variable {e : Entity} {α β : Type} {t : SideTable e α} {a : Arena e β} {key : Key e}

/-- Nothing is attached to a key before it is given out. -/
theorem Within.issued_of_fetch (h : t.Within a) {x : α} (hf : t.fetch key = some x) :
    a.Issued key := by
  have hplace := fetch_eq_some.mp hf
  match key with
  | .null => exact absurd rfl (index_ne_zero_of_fetch hf)
  | .at 0 _ => exact absurd rfl (index_ne_zero_of_fetch hf)
  | .at (i + 1) version =>
    obtain ⟨cell, hc, hle⟩ := h i _ hplace
    exact ⟨i, version, cell, rfl, hc, hle⟩

theorem Within.fetch_insert_key (h : t.Within a) (value : Key e → β) :
    t.fetch (a.insert value).1 = none := by
  cases hf : t.fetch (a.insert value).1 with
  | none => rfl
  | some x => exact absurd (h.issued_of_fetch hf) (a.not_issued_insert_key value)

/-- What is attached to another key, in use or not, is not seen at a key with a value. -/
theorem fetch_insert_of_issued (t : SideTable e α) {other : Key e} {value : β}
    (hother : a.Issued other) (hkey : a.get? key = some value) (ne : other ≠ key) (x : α) :
    (t.insert other x).fetch key = t.fetch key := by
  by_cases hindex : other.index = key.index
  · have hlt := hother.version_lt hkey hindex ne
    cases hf : t.fetch key with
    | some y =>
      -- the newer key is in the place already
      have hout : t.Outdates other := ⟨_, hindex ▸ fetch_eq_some.mp hf, hlt⟩
      rw [insert_of_outdates hout, hf]
    | none =>
      cases hf' : (t.insert other x).fetch key with
      | none => rfl
      | some y =>
        rcases fetch_insert_cases hf' with heq | hy
        · exact absurd heq ne
        · cases hf.symm.trans hy
  · exact t.fetch_insert_of_ne (Ne.symm hindex) x

end SideTable

/--
What comes of a tree and its storage when nodes are added and removed and facts are attached;
`given` are the ids given out, the latest last.
-/
inductive Uses : Ast → List NodeId → Annotations → Prop where
  | start (source : Nat) : Uses (.empty source) [] .empty
  | add {ast : Ast} {given : List NodeId} {facts : Annotations} (kind : NodeKind) (loc : Loc) :
      Uses ast given facts →
      Uses (ast.add kind loc).2 (given ++ [(ast.add kind loc).1]) facts
  | remove {ast : Ast} {given : List NodeId} {facts : Annotations} (id : NodeId) :
      Uses ast given facts → Uses (ast.remove id) given facts
  | attach {ast : Ast} {given : List NodeId} {facts : Annotations} (f : Fact) (id : NodeId)
      (value : f.Value) : Uses ast given facts → id ∈ given ∨ id = .null →
      Uses ast given (facts.insert f id value)

/-- The storage is about the nodes that the tree has. -/
structure Faithful (ast : Ast) (given : List NodeId) (facts : Annotations) : Prop where
  /-- nothing is known of the next node -/
  fresh : ∀ kind loc f, facts.fetch f (ast.add kind loc).1 = none
  /-- what is attached to a node is there, -/
  attached : ∀ id n, ast.get? id = some n → ∀ (f : Fact) (value : f.Value),
    (facts.insert f id value).fetch f id = some value
  /-- and what is attached to another id, or is of another sort, is not -/
  apart : ∀ id n, ast.get? id = some n → ∀ other, other ∈ given ∨ other = .null →
    ∀ (f g : Fact) (value : g.Value), other ≠ id ∨ g ≠ f →
      (facts.insert g other value).fetch f id = facts.fetch f id

namespace Annotations

variable {facts : Annotations}

theorem fetch_insert_of_fact_ne {f g : Fact} (ne : g ≠ f) (id other : NodeId) (value : g.Value) :
    (facts.insert g other value).fetch f id = facts.fetch f id := by
  unfold fetch insert
  rw [table_mapTable_of_ne _ _ ne.symm]

theorem fetch_insert_table (f : Fact) (id other : NodeId) (value : f.Value) :
    (facts.insert f other value).fetch f id = ((facts.table f).insert other value).fetch id := by
  unfold fetch insert
  rw [table_mapTable]

end Annotations

namespace Uses

variable {ast : Ast} {given : List NodeId} {facts : Annotations}

theorem issued (h : Uses ast given facts) : ∀ id ∈ given, ast.nodes.Issued id := by
  induction h with
  | start source =>
    intro id hid
    cases hid
  | add kind loc _ ih =>
    intro id hid
    rcases List.mem_append.mp hid with hid | hid
    · exact (ih id hid).mono (Arena.grows_insert _ _)
    · obtain rfl := List.mem_singleton.mp hid
      exact Arena.issued_insert_key _ _
  | remove id _ ih => exact fun other ho => (ih other ho).mono (Arena.grows_remove _ _)
  | attach f id value _ _ ih => exact ih

theorem within (h : Uses ast given facts) (f : Fact) : (facts.table f).Within ast.nodes := by
  induction h with
  | start source => cases f <;> exact SideTable.within_empty _
  | add kind loc _ ih => exact ih.mono (Arena.grows_insert _ _)
  | remove id _ ih => exact ih.mono (Arena.grows_remove _ _)
  | @attach ast given facts g id value h hid ih =>
    by_cases heq : f = g
    · subst heq
      unfold Annotations.insert
      rw [Annotations.table_mapTable]
      rcases hid with hid | rfl
      · exact ih.insert (h.issued id hid) value
      · exact ih
    · unfold Annotations.insert
      rw [Annotations.table_mapTable_of_ne _ _ heq]
      exact ih

/-- Whatever was attached, and whenever, a storage is about the nodes that are there. -/
theorem faithful (h : Uses ast given facts) : Faithful ast given facts where
  fresh kind loc f := (h.within f).fetch_insert_key _
  attached id n hn f value := by
    rw [Annotations.fetch_insert_table]
    have hnew := (h.within f).not_outdates hn
    exact SideTable.fetch_insert_self _ (Arena.index_ne_zero hn) hnew value
  apart id n hn other hother f g value hne := by
    by_cases hfact : g = f
    · subst hfact
      have hother_ne : other ≠ id := hne.resolve_right fun ne => ne rfl
      rw [Annotations.fetch_insert_table]
      rcases hother with hgiven | rfl
      · exact SideTable.fetch_insert_of_issued _ (h.issued other hgiven) hn hother_ne value
      · rfl
    · exact Annotations.fetch_insert_of_fact_ne hfact id other value

/--
A node is removed and another gets its index; then something is attached to the old id, to the new
one, and to the old one again.
-/
theorem faithful_reissued : ∃ ast given facts, Uses ast given facts ∧
    given = [.at 1 1, .at 1 3] ∧ facts.fetch .number (.at 1 1) = none ∧
    facts.fetch .number (.at 1 3) = some (2 : Int64) ∧ Faithful ast given facts := by
  have h : Uses _ _ _ := .attach .number (.at 1 1) (3 : Int64)
    (.attach .number (.at 1 3) (2 : Int64) (.attach .number (.at 1 1) (1 : Int64)
      (.add .cont ⟨0, 0, 0⟩ (.remove (.at 1 1) (.add .brk ⟨0, 0, 0⟩ (.start 0))))
      (by decide)) (by decide)) (by decide)
  exact ⟨_, _, _, h, by decide, by decide, by decide, faithful h⟩

end Uses

end FlatScope
