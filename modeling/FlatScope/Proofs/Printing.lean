import FlatScope.Dump
import FlatScope.Proofs.Paths

/-!
# The lines of a dump

`Dump.print` carries what is written and which pools have labels from node to node. It goes through
the entries of the outline one by one (`print_eq`), so what it returns are the lines of `Dump.lines`
(`Ast.dump_eq`).
-/

namespace FlatScope

namespace Dump

/-- The lines of the rest of a tree, where `pools` have labels from before. -/
def linesFrom (facts : Annotations) (pools : List PoolId) :
    List (Nat × NodeId × Option Node) → List Line
  | [] => []
  | (depth, id, none) :: entries => missingLine depth id :: linesFrom facts pools entries
  | (depth, _, some n) :: entries =>
    let pools := labelled facts pools n
    ⟨depth, nodeParts facts pools n⟩ :: linesFrom facts pools entries

def lines (facts : Annotations) (outline : Outline) : List Line :=
  linesFrom facts [] (outline.entries 0)

variable (ast : Ast) (facts : Annotations) (colour : Bool)

/-- Writes the line of an entry. -/
def Printer.writeEntry (p : Printer) : Nat × NodeId × Option Node → Printer
  | (depth, id, none) => p.write colour (missingLine depth id)
  | (depth, _, some n) => p.writeNode facts colour depth n

theorem Printer.out_foldl_writeEntry (p : Printer) (entries : List (Nat × NodeId × Option Node)) :
    (entries.foldl (writeEntry facts colour) p).out =
      p.out ++ String.join ((linesFrom facts p.pools entries).map (·.text colour)) := by
  induction entries generalizing p with
  | nil => simp [linesFrom]
  | cons entry entries ih =>
    obtain ⟨depth, id, node?⟩ := entry
    rw [List.foldl_cons, ih]
    cases node? with
    | none => simp [linesFrom, writeEntry, write, String.append_assoc]
    | some n => simp [linesFrom, writeEntry, write, writeNode, String.append_assoc]

theorem printWithin_eq (levels depth : Nat) (id : NodeId) (p : Printer) :
    printWithin ast facts colour levels depth id p =
      ((ast.outlineWithin levels id).entries depth).foldl (Printer.writeEntry facts colour) p := by
  induction levels generalizing depth id p with
  | zero => rfl
  | succ levels ih =>
    cases hn : ast.get? id with
    | none =>
      rw [Ast.outlineWithin_of_none hn, printWithin, hn]
      rfl
    | some n =>
      rw [Ast.outlineWithin_of_some hn, printWithin, hn, Ast.children_of_get? hn]
      simp only [ih, Outline.entries, Outline.entriesOfAll_eq_flatMap, List.foldl_cons,
        List.flatMap_map, List.foldl_flatMap]
      rfl

/-- A dump goes through the entries of the outline one by one. -/
theorem print_eq (depth : Nat) (id : NodeId) (p : Printer) :
    print ast facts colour depth id p =
      ((ast.outline id).entries depth).foldl (Printer.writeEntry facts colour) p :=
  printWithin_eq ast facts colour ast.size depth id p

end Dump

/-- What a dump returns are its lines one after the other. -/
theorem Ast.dump_eq (ast : Ast) (facts : Annotations) (colour : Bool) (root : NodeId) :
    ast.dump facts colour root =
      String.join ((Dump.lines facts (ast.outline root)).map (·.text colour)) := by
  rw [dump, Dump.print_eq, Dump.Printer.out_foldl_writeEntry]
  exact String.empty_append

end FlatScope
