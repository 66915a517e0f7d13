import FlatScope.Annotations
import FlatScope.Ast.Basic
import FlatScope.Text.Quoted

/-!
# Tree dumps

A dump has one line per place of the tree, indented by its depth: the kind of the node, a detail of
it, the label of its pool and its slot. Pools are labelled `@0`, `@1` and so on in the order in
which they first occur, so a dump does not depend on the keys of the pools. `Line` holds the parts
of a line; colour is added when it is written.
-/

namespace FlatScope

namespace NodeKind

/-- A name that is called shows its parentheses. -/
def called (name : String) (args : Option NodeId) : String :=
  match args with
  | some _ => name ++ "()"
  | none => name

/-- What a dump shows of a node besides its kind. -/
def detail : NodeKind → Option String
  | classDecl name _ | field _ name | function _ name _ _ | param _ name | declaration _ name =>
    some name
  | type .int => some "int"
  | type .float => some "float"
  | type .string => some "string"
  | type .void => some "void"
  | type (.named _) => some "<class>"
  | int value => some (toString value)
  | float value => some value.text
  | string value => some (Text.quoted value)
  | identifier name args => some (called name args)
  | new className _ => some className
  | accessor _ member args => some (called ("." ++ member) args)
  | binary op _ _ => some op.text
  | unary op _ => some op.text
  | _ => none

end NodeKind

namespace Dump

/-- The parts of a line that a dump can colour. -/
inductive Part where
  | kind
  | detail
  | pool
  | slot
  | missing
deriving DecidableEq, Repr

/-- The number of the colour in the escape sequence that switches it on. -/
def Part.colour : Part → Nat
  | kind => 33
  | detail => 36
  | pool => 95
  | slot => 92
  | missing => 31

structure Line where
  depth : Nat
  parts : List (Part × String)
deriving DecidableEq, Repr

/-- Writes `on` behind every escape sequence of a text that switches colours off. -/
def renew (on : List Char) : List Char → List Char
  | '\x1b' :: '[' :: '0' :: 'm' :: rest => ['\x1b', '[', '0', 'm'] ++ on ++ renew on rest
  | c :: rest => c :: renew on rest
  | [] => []

/-- A part between the escape sequences of its colour, which holds to the end of the part. -/
def paint (colour : Bool) : Part × String → String
  | (part, text) =>
    if colour then
      let on := "\x1b[" ++ toString part.colour ++ "m"
      on ++ String.ofList (renew on.toList text.toList) ++ "\x1b[0m"
    else text

def Line.text (colour : Bool) (line : Line) : String :=
  String.ofList (List.replicate (2 * line.depth) ' ')
    ++ String.intercalate " " (line.parts.map (paint colour)) ++ "\n"

/--
The pools that have a label once a node is written, in the order of their labels; a pool that has
none yet gets the next one.
-/
def labelled (facts : Annotations) (pools : List PoolId) (n : Node) : List PoolId :=
  match facts.fetch .pool n.id with
  | some pool => if pool ∈ pools then pools else pools ++ [pool]
  | none => pools

/-- The parts of a node's line; `pools` are the labelled pools in order. -/
def nodeParts (facts : Annotations) (pools : List PoolId) (n : Node) : List (Part × String) :=
  let detail := n.kind.detail.map ((Part.detail, ·))
  let pool := (facts.fetch .pool n.id).map fun pool =>
    (Part.pool, "@" ++ toString (pools.idxOf pool))
  let slot := (facts.fetch .slot n.id).map fun slot => (Part.slot, "slot " ++ toString slot)
  (.kind, n.kind.name) :: (detail.toList ++ pool.toList ++ slot.toList)

def missingLine (depth : Nat) (id : NodeId) : Line :=
  ⟨depth, [(.missing, "<missing " ++ id.text ++ ">")]⟩

/-- The pools that have labels, in order, and what is written. -/
structure Printer where
  pools : List PoolId := []
  out : String := ""

namespace Printer

def write (colour : Bool) (line : Line) (p : Printer) : Printer :=
  { p with out := p.out ++ line.text colour }

/-- Labels the pool of a node and writes the node's line. -/
def writeNode (facts : Annotations) (colour : Bool) (depth : Nat) (n : Node) (p : Printer) :
    Printer :=
  let pools := labelled facts p.pools n
  { p with pools }.write colour ⟨depth, nodeParts facts pools n⟩

end Printer

section

variable (ast : Ast) (facts : Annotations) (colour : Bool)

/-- `print` down to so many levels; what is below them is taken for missing. -/
def printWithin : (levels depth : Nat) → NodeId → Printer → Printer
  | 0, depth, id, p => p.write colour (missingLine depth id)
  | levels + 1, depth, id, p =>
    match ast.get? id with
    | none => p.write colour (missingLine depth id)
    | some n =>
      (ast.children id).foldl (fun p child => printWithin levels (depth + 1) child p)
        (p.writeNode facts colour depth n)

/-- Writes everything reachable from a node, a line for the node and then its children. -/
def print (depth : Nat) (id : NodeId) (p : Printer) : Printer :=
  printWithin ast facts colour ast.size depth id p

end

end Dump

/-- The dump of everything reachable from a node. -/
def Ast.dump (ast : Ast) (facts : Annotations) (colour : Bool) (id : NodeId) : String :=
  (Dump.print ast facts colour 0 id {}).out

end FlatScope
