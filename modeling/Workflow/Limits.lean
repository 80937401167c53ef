import Workflow.Failure
/-!
# Limits — how far an analysis and a run may go

The analysis of an OR-join may blow up.  It stops with a failure as soon as it would go beyond one of its
limits, and never answers by guessing.
-/
namespace Workflow

structure AnalysisLimits where
  /-- The widest OR-split that is analysed, or enumerated, subset by subset. -/
  branches : Nat := 12
  /-- The most minimal markings a search keeps. -/
  basis : Nat := 50000
  /-- The most rounds a search takes. -/
  rounds : Nat := 10000
deriving DecidableEq, Repr

structure RunLimits where
  /-- The most firings of one run. -/
  steps : Nat := 10000
  analysis : AnalysisLimits := {}
deriving DecidableEq, Repr

/-- The first limit that makes no sense.  The subsets of a set of 64 branches can no longer be counted in
a word. -/
def AnalysisLimits.defect? (l : AnalysisLimits) : Option AnalysisLimitDefect :=
  if l.branches = 0 ∨ 64 ≤ l.branches then some .branches
  else if l.basis = 0 then some .basis
  else if l.rounds = 0 then some .rounds
  else none

def RunLimits.defect? (l : RunLimits) : Option RunLimitDefect :=
  if l.steps = 0 then some .steps else none

def AnalysisLimits.checked (l : AnalysisLimits) : Except Failure AnalysisLimits :=
  match l.defect? with
  | some cause => .error (.analysisLimit cause)
  | none => .ok l

/-- The limits themselves, if they make sense; the limits of the analysis are looked at first. -/
def RunLimits.checked (l : RunLimits) : Except Failure RunLimits :=
  match l.analysis.checked with
  | .error failure => .error failure
  | .ok _ =>
    match l.defect? with
    | some cause => .error (.runLimit cause)
    | none => .ok l

end Workflow
