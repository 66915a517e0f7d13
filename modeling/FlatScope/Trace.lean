import FlatScope.Walk

/-!
# Recording a walk

`recorder` notes every reference it comes to, with the reference above it and the depth, every
dangling reference and every node that stands where reading failed. The last two end the walk unless
the recorder is told to go on.
-/

namespace FlatScope.Trace

inductive Event where
  | visit (id : NodeId) (parent : Option NodeId) (depth : Nat)
  | missing (id : NodeId)
  | error (loc : Loc)
deriving DecidableEq, Repr

inductive Stop where
  | missing (id : NodeId)
  | error (loc : Loc)
deriving DecidableEq, Repr

def Stop.message : Stop → String
  | missing id => "missing " ++ id.text
  | error loc => "error node at " ++ toString loc.start ++ ".." ++ toString loc.stop

/-- The references above the current one, the nearest first, and the events so far. -/
structure State where
  stack : List NodeId := []
  log : Array Event := #[]

def State.withStack (stack : List NodeId) (s : State) : State := { s with stack }

def State.push (s : State) (id : NodeId) : State where
  stack := id :: s.stack
  log := s.log.push (.visit id s.stack.head? s.stack.length)

def record (event : Event) : Walk State Stop :=
  Walk.modify fun s => { s with log := s.log.push event }

/-- Notes an event, which ends the walk unless such events are skipped. -/
def recordOrStop (event : Event) (stop : Stop) (skip : Bool) : Walk State Stop :=
  (record event).andThen (if skip then Walk.done else Walk.fail stop)

def recorder (skipMissing skipError : Bool) : Visitor State Stop :=
  { Visitor.plain (fun id => recordOrStop (.missing id) (.missing id) skipMissing)
      (fun loc => recordOrStop (.error loc) (.error loc) skipError) with
    around id _ := Walk.bracket State.stack State.withStack (·.push id) }

end FlatScope.Trace
