import FlatScope.Grammar.Failure
import FlatScope.Arena
import FlatScope.Source.Excerpt

/-!
# Diagnostics

A `Defect` is a reason to give up on a tree, a `Diagnostic` puts it in a place and adds notes. A
`Report` is the form in which a reader gets to see either that or an error in the source text; it
shows only what can be placed in the text.
-/

namespace FlatScope

inductive Defect where
  /-- a reference to a node that is not there -/
  | missingNode (id : NodeId)
  /-- a node that stands where reading failed -/
  | unparsedNode
  /-- a node outside every scope -/
  | noActiveScope (kind : String)
  /-- a node that scope resolution has not seen -/
  | unresolved (kind : String)
  /-- a name for which the frame has no slot left -/
  | tooManyLocals (name : String)
  /-- a fault of the compiler itself -/
  | internal (text : String)
deriving DecidableEq, Repr

namespace Defect

def code : Defect → String
  | missingNode _ => "E001"
  | unparsedNode => "E002"
  | noActiveScope _ => "E003"
  | unresolved _ => "E004"
  | tooManyLocals _ => "E005"
  | internal _ => "E999"

def title : Defect → String
  | missingNode _ | unparsedNode => "Malformed Tree"
  | noActiveScope _ => "Scope Resolution Failed"
  | unresolved _ => "Scope Resolution Missing"
  | tooManyLocals _ => "Frame Too Large"
  | internal _ => "Compilation Error"

def message : Defect → String
  | missingNode id => "Required child " ++ id.text ++ " is absent from the tree"
  | unparsedNode => "This construct could not be parsed and cannot be compiled"
  | noActiveScope kind => "`" ++ kind ++ "` reached with no active scope pool"
  | unresolved kind => "`" ++ kind ++ "` has no scope pool; run scope resolution first"
  | tooManyLocals name =>
    "No local slot left for `" ++ name ++ "`; a frame holds at most 65535 slots"
  | internal text => "Internal compiler error: " ++ text

end Defect

/-- A remark, with a place if it is about one. -/
structure Note where
  text : String
  loc : Option Loc
deriving DecidableEq, Repr

structure Diagnostic where
  defect : Defect
  loc : Loc
  notes : List Note := []
deriving DecidableEq, Repr

namespace Diagnostic

def withNote (d : Diagnostic) (text : String) (loc : Option Loc) : Diagnostic :=
  { d with notes := d.notes ++ [⟨text, loc⟩] }

/-- The diagnostic on one line. -/
def message (d : Diagnostic) : String :=
  "[" ++ d.defect.code ++ "] " ++ d.defect.message ++ " at " ++ toString d.loc.start ++ ".."
    ++ toString d.loc.stop

end Diagnostic

/-- A text with the number by which places refer to it. -/
structure Source where
  number : Nat
  text : String

/-- A heading, the texts that are shown at their places, and remarks without a place. -/
structure Report where
  header : String
  labels : List String
  notes : List String
deriving DecidableEq, Repr

/--
The report on some labels and remarks. A label is shown as often as its place is marked in the
excerpt around all labels; the remarks follow the excerpt, and without one they are left out.
-/
def Report.about (source : Source) (header : String) (labels : List (String × Loc))
    (notes : List String) : Report :=
  let layout := Layout.ofText source.text
  let near := labels.filter fun (_, loc) => loc.source = source.number && layout.reaches loc
  { header
    labels := (layout.linesAround (near.map (·.2))).flatMap fun line =>
      (near.filter fun (_, loc) => layout.marks line loc).map (·.1)
    notes := if near.isEmpty then [] else notes }

namespace Diagnostic

/-- The message is shown at the place of the defect, a note at its own if it has one. -/
def report (d : Diagnostic) (source : Source) : Report :=
  let placed := d.notes.filterMap fun note => note.loc.map fun loc => (note.text, loc)
  Report.about source ("[" ++ d.defect.code ++ "] Error: " ++ d.defect.title)
    ((d.defect.message, d.loc) :: placed) ((d.notes.filter (·.loc.isNone)).map (·.text))

end Diagnostic

/-- Why a text is not in the language, and where. -/
structure SyntaxError where
  loc : Loc
  cause : Grammar.Cause
deriving DecidableEq, Repr

namespace SyntaxError

def message (e : SyntaxError) : String :=
  match e.cause with
  | .badEscape => "invalid escape sequence in string"
  | .expected items found =>
    let seen := match found with
      | some token => "`" ++ token.text ++ "`"
      | none => "end of input"
    let wanted := match items with
      | [] => "something else"
      | _ => String.intercalate " or " (items.map fun item => "`" ++ item.text ++ "`")
    "Unexpected " ++ seen ++ ", expected " ++ wanted

def report (e : SyntaxError) (source : Source) : Report :=
  Report.about source "Error: Syntax error" [(e.message, e.loc)] []

end SyntaxError

end FlatScope
