/-!
# Defect — why a drawing is not a workflow net

The first group arises while pieces are added, the second when the finished drawing is checked.
`Defect.message` is the only place where their wording stands.
-/
namespace Workflow

inductive Defect where
  | arcToMissingPlace (place transition : String)
  | arcToMissingTransition (place transition : String)
  | cancellationByMissing (transition : String)
  | cancellationOfMissing (element transition : String)
  | noSource
  | noSink
  | manySources (names : List String)
  | manySinks (names : List String)
  | noInput (transition : String)
  | noOutput (transition : String)
  | sourceEntered (place : String)
  | sinkLeft (place : String)
  | placeNeverEntered (place : String)
  | placeNeverLeft (place : String)
  | unreachable (nodes : List String)
  | deadEnd (nodes : List String)
deriving DecidableEq, Repr

def bracketed (names : List String) : String := "[" ++ ", ".intercalate names ++ "]"

def Defect.message : Defect → String
  | .arcToMissingPlace p t => s!"Arc '{p}' <-> '{t}' cannot be added, place does not exist."
  | .arcToMissingTransition p t => s!"Arc '{p}' <-> '{t}' cannot be added, transition does not exist."
  | .cancellationByMissing t => s!"Cancellation on '{t}' cannot be added, transition does not exist."
  | .cancellationOfMissing e t => s!"Cancellation of '{e}' by '{t}' cannot be added, element does not exist."
  | .noSource => "Net has no source place."
  | .noSink => "Net has no sink place."
  | .manySources names => "Net has more than one source place: " ++ bracketed names
  | .manySinks names => "Net has more than one sink place: " ++ bracketed names
  | .noInput t => s!"Transition '{t}' has no input place."
  | .noOutput t => s!"Transition '{t}' has no output place."
  | .sourceEntered p => s!"Source place '{p}' has incoming arcs."
  | .sinkLeft p => s!"Sink place '{p}' has outgoing arcs."
  | .placeNeverEntered p => s!"Place '{p}' has no incoming arcs but is not the source place."
  | .placeNeverLeft p => s!"Place '{p}' has no outgoing arcs but is not the sink place."
  | .unreachable nodes => "Nodes not reachable from the source place: " ++ bracketed nodes
  | .deadEnd nodes => "Nodes not able to reach the sink place: " ++ bracketed nodes

end Workflow
