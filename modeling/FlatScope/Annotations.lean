import FlatScope.SideTable

/-!
# Facts about nodes

`Annotations` holds what is known about the nodes of a tree: one side table per `Fact`, so that
facts of different sorts never get in each other's way.
-/

namespace FlatScope

/-- The sorts of facts. -/
inductive Fact where
  /-- the scope pool that a node belongs to -/
  | pool
  /-- the slot of a local variable that a node declares or reads -/
  | slot
  /-- the number of slots that a function needs -/
  | frame
  /-- a number attached from outside -/
  | number
  /-- a text attached from outside -/
  | text
deriving DecidableEq, Repr

/-- What a fact of each sort says. -/
abbrev Fact.Value : Fact → Type
  | pool => PoolId
  | slot => Nat
  | frame => Nat
  | number => Int64
  | text => String

structure Annotations where
  pools : SideTable .node PoolId := {}
  slots : SideTable .node Nat := {}
  frames : SideTable .node Nat := {}
  numbers : SideTable .node Int64 := {}
  texts : SideTable .node String := {}

namespace Annotations

def empty : Annotations := {}

def table (a : Annotations) : (f : Fact) → SideTable .node f.Value
  | .pool => a.pools
  | .slot => a.slots
  | .frame => a.frames
  | .number => a.numbers
  | .text => a.texts

/-- Changes one table. -/
def mapTable (a : Annotations) :
    (f : Fact) → (SideTable .node f.Value → SideTable .node f.Value) → Annotations
  | .pool, g => { a with pools := g a.pools }
  | .slot, g => { a with slots := g a.slots }
  | .frame, g => { a with frames := g a.frames }
  | .number, g => { a with numbers := g a.numbers }
  | .text, g => { a with texts := g a.texts }

def fetch (a : Annotations) (f : Fact) (id : NodeId) : Option f.Value := (a.table f).fetch id

def has (a : Annotations) (f : Fact) (id : NodeId) : Bool := (a.table f).has id

def count (a : Annotations) (f : Fact) : Nat := (a.table f).count

def insert (a : Annotations) (f : Fact) (id : NodeId) (value : f.Value) : Annotations :=
  a.mapTable f (·.insert id value)

def modify (a : Annotations) (f : Fact) (id : NodeId) (g : f.Value → f.Value) : Annotations :=
  a.mapTable f (·.modify id g)

@[simp] theorem table_mapTable (a : Annotations) (f : Fact)
    (g : SideTable .node f.Value → SideTable .node f.Value) :
    (a.mapTable f g).table f = g (a.table f) := by
  cases f <;> rfl

theorem table_mapTable_of_ne (a : Annotations) {f h : Fact}
    (g : SideTable .node f.Value → SideTable .node f.Value) (ne : h ≠ f) :
    (a.mapTable f g).table h = a.table h := by
  cases f <;> cases h <;> simp_all [table, mapTable]

end Annotations

end FlatScope
