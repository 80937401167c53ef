import Workflow.Case.State
import Workflow.Net.Defect
import Workflow.Net.Graph
/-!
# Failure — why an operation has no answer

Causes are grouped by what went wrong: the net, the state of a marking or a case, an analysis that
outgrew its limits, or a value handed in.  The texts stand in the `message` functions and nowhere else.
-/
namespace Workflow

/-- The request does not fit the state of the marking or of the case. -/
inductive Conflict where
  | countOverflow (p : PlaceId)
  | countUnderflow (p : PlaceId) (wanted held : Nat)
  | nothingSelected (transition : String)
  | outsidePostset (p : PlaceId) (transition : String)
  | andSplitPartial (transition : String) (expected actual : Nat)
  | xorSplitNotSingle (transition : String) (actual : Nat)
  | notEnabled (transition : String)
  | caseOver (case : CaseId) (state : CaseState)
deriving DecidableEq, Repr

def Conflict.message : Conflict → String
  | .countOverflow p => s!"Token count of place '{p}' overflows"
  | .countUnderflow p wanted held => s!"Cannot remove {wanted} tokens from place '{p}' holding {held}"
  | .nothingSelected t => s!"Empty output selection for transition '{t}'"
  | .outsidePostset p t => s!"Place '{p}' is not in the postset of transition '{t}'"
  | .andSplitPartial t expected actual =>
    s!"AND-split '{t}' must produce on all {expected} postset places, got {actual}"
  | .xorSplitNotSingle t actual => s!"XOR-split '{t}' must produce on exactly one place, got {actual}"
  | .notEnabled t => s!"Transition '{t}' is not enabled"
  | .caseOver c state => caseTag c ++ " is " ++ state.name ++ ", no more firings possible"

/-- A value handed in names nothing, or the wrong thing. -/
inductive BadValue where
  | noSuchPlace (p : PlaceId)
  | noSuchTransition (t : TransitionId)
  | unknownPlace (name : String)
  | unknownTransition (name : String)
  | unknownPersistedPlace (name : String)
  | notOrJoin (transition : String)
deriving DecidableEq, Repr

def BadValue.message : BadValue → String
  | .noSuchPlace p => s!"Marking has no place '{p}'"
  | .noSuchTransition t => s!"Transition '{t}' does not exist"
  | .unknownPlace name => s!"Unknown place '{name}'"
  | .unknownTransition name => s!"Unknown transition '{name}'"
  | .unknownPersistedPlace name => s!"Persisted marking refers to unknown place '{name}'"
  | .notOrJoin t => s!"Transition '{t}' is not an OR-join"

/-- An analysis or an enumeration would go beyond its limit. -/
inductive Excess where
  | finishes (transition : String) (branches limit : Nat)
  | selections (transition : String) (branches limit : Nat)
  | basis (limit : Nat)
  | rounds (limit : Nat)
deriving DecidableEq, Repr

def Excess.message : Excess → String
  | .finishes t branches limit =>
    s!"OR-split '{t}' has {branches} branches, at most {limit} are expanded into end transitions"
  | .selections t branches limit =>
    s!"OR-split '{t}' has {branches} output places, at most {limit} are enumerated"
  | .basis limit => s!"Predecessor basis grew beyond {limit} markings"
  | .rounds limit => s!"Coverability search did not converge within {limit} iterations"

/-- A limit on the analysis of OR-joins that makes no sense. -/
inductive AnalysisLimitDefect where
  | branches
  | basis
  | rounds
deriving DecidableEq, Repr

def AnalysisLimitDefect.message : AnalysisLimitDefect → String
  | .branches => "max_or_split_branches must be in 1..64"
  | .basis => "max_basis_size must be positive"
  | .rounds => "max_iterations must be positive"

/-- A limit on the driving of a case that makes no sense. -/
inductive RunLimitDefect where
  | steps
deriving DecidableEq, Repr

def RunLimitDefect.message : RunLimitDefect → String
  | .steps => "max_steps must be positive"

inductive Failure where
  | malformed (cause : Defect)
  | conflict (cause : Conflict)
  | excess (cause : Excess)
  | badValue (cause : BadValue)
  | noSuchCase (case : CaseId)
  | analysisLimit (cause : AnalysisLimitDefect)
  | runLimit (cause : RunLimitDefect)
  | stepLimit (limit : Nat)
deriving DecidableEq, Repr

def Failure.message : Failure → String
  | .malformed cause => "Malformed net: " ++ cause.message
  | .conflict cause => "Illegal state: " ++ cause.message
  | .excess cause => "Analysis bound exceeded: " ++ cause.message
  | .badValue cause => "Inappropriate value: " ++ cause.message
  | .noSuchCase c => "Not found: No case with id '" ++ caseTag c ++ "'"
  | .analysisLimit cause => "Analyzer configuration error: " ++ cause.message
  | .runLimit cause => "Runner configuration error: " ++ cause.message
  | .stepLimit limit => s!"Case did not reach quiescence within {limit} steps"

end Workflow
