import Workflow.Proofs.OrJoin
import Workflow.Proofs.Setting
/-!
# Widening — wider limits take nothing back

Whatever an analysis has found out within its limits, it finds out within wider ones too.  So two cases that differ in
the limits alone cannot be told apart in any dialogue in which the narrower limits cut nothing off
(`unchanged_within_wider_limits`).
-/
namespace Workflow

/-- The same case with other limits on its analysis. -/
def Case.withAnalysis (c : Case) (l : AnalysisLimits) : Case := { c with limits := { c.limits with analysis := l } }

namespace Case

variable {c : Case} {l : AnalysisLimits} {r r' : Reply}

theorem marking_withAnalysis (c : Case) (l : AnalysisLimits) : (c.withAnalysis l).marking = c.marking := rfl

theorem inSetting_self (c : Case) (l : AnalysisLimits) : c.inSetting ⟨c.id, 0, #[], l⟩ = c.withAnalysis l := by
  unfold inSetting withAnalysis
  rw [Array.empty_append, Nat.zero_add]

/-- Where number and past are the same, so are the replies. -/
theorem eq_of_alike {i : CaseId} {past : Array Change} (h : Reply.Alike i ⟨i, 0, past, l⟩ r r') : r = r' := by
  have hself (o : Outcome) (ho : o.case = i) : o = o.inSetting ⟨i, 0, past, l⟩ := by
    subst ho
    unfold Outcome.inSetting
    rw [Nat.zero_add]
  cases h with
  | same r => rfl
  | rests o ho => rw [← hself o ho]
  | outcome o ho => rw [← hself o ho]
  | ended state => rfl

/-- **Two cases that differ in their limits alone stay so**, as long as the narrower limits cut nothing off. -/
theorem replies_withAnalysis (turns : List Turn) (h : c.limits.analysis.Within l)
    (hcut : ∀ r ∈ c.replies turns, r.isCutOff = false) :
    (c.withAnalysis l).replies turns = c.replies turns ∧
      (c.withAnalysis l).afterTurns turns = (c.afterTurns turns).withAnalysis l := by
  have hturns := replies_inSetting (s := ⟨c.id, 0, #[], l⟩) turns h
  rw [inSetting_self] at hturns
  rcases hturns with ⟨-, r, hr, hexcess⟩ | ⟨hreplies, hend⟩
  · rw [hcut r hr] at hexcess
    cases hexcess
  · refine ⟨?_, ?_⟩
    · have heq : c.replies turns = (c.withAnalysis l).replies turns :=
        List.forall₂_eq_eq_eq ▸ hreplies.imp fun _ _ => eq_of_alike
      exact heq.symm
    · rw [hend, ← id_afterTurns turns c, inSetting_self]

end Case

/-- **Limits are a safety valve and nothing else.**  What is found out about a marking within some limits is found out
within wider ones; and a case under wider limits gives the same replies and comes to the same case, unless a reply was
cut off under the narrower ones. -/
theorem unchanged_within_wider_limits {l l' : AnalysisLimits} (h : l.Within l') :
    (∀ (net : Net) (m : Marking),
      (∀ t v, net.orJoinVerdict l t m = .ok v → net.orJoinVerdict l' t m = .ok v) ∧
      (∀ t e, net.enablement l m t = .ok e → net.enablement l' m t = .ok e) ∧
      (∀ ts, net.enabledTransitions l m = .ok ts → net.enabledTransitions l' m = .ok ts) ∧
      ∀ first, net.firstEnabled l m = .ok first → net.firstEnabled l' m = .ok first) ∧
    ∀ (c : Case) (turns : List Turn), c.limits.analysis = l → (∀ r ∈ c.replies turns, r.isCutOff = false) →
      (c.withAnalysis l').replies turns = c.replies turns ∧
        (c.withAnalysis l').afterTurns turns = (c.afterTurns turns).withAnalysis l' := by
  refine ⟨fun net m => ⟨?_, ?_, ?_, ?_⟩, ?_⟩
  · exact fun t v hv => (net.upheld_orJoinVerdict h t m).ok hv
  · exact fun t e he => (net.upheld_enablement h m t).ok he
  · exact fun ts hts => (net.upheld_enabledTransitions h m).ok hts
  · exact fun first hfirst => (net.upheld_firstEnabled h m).ok hfirst
  · rintro c turns rfl hcut
    exact c.replies_withAnalysis turns h hcut

/-- The question is put and left open; a run then settles it, and at last the case is set back. -/
def negotiation : List Turn :=
  [.act (.fire 0 (.ofList [1, 2, 4])), .ask (.enablement 3), .ask .successors, .act (.run Router.standard none),
    .ask .outcome, .act (.restore (TokenMap.ofList [("c", 1), ("d", 1)])), .ask .enabledTransitions]

/-- Two rounds with two markings are enough here, so nothing is different with as many as usual. -/
theorem negotiation_unchanged :
    Net.offer.enablement {} ⟨[0, 1, 1, 0, 1, 0, 0, 0]⟩ 3 = .ok (.disabled (some 5)) ∧
    (Case.launch Net.offer 1 {}).replies negotiation =
      (Case.launch Net.offer 1 { analysis := ⟨4, 2, 2⟩ }).replies negotiation ∧
    ((Case.launch Net.offer 1 {}).afterTurns negotiation).marking = ⟨[0, 1, 1, 0, 0, 0, 0, 0]⟩ := by
  have hwithin : AnalysisLimits.Within ⟨4, 2, 2⟩ {} := ⟨by decide, by decide, by decide⟩
  have hcut : ∀ r ∈ (Case.launch Net.offer 1 { analysis := ⟨4, 2, 2⟩ }).replies negotiation, r.isCutOff = false := by
    decide +kernel
  have hmarking : ((Case.launch Net.offer 1 { analysis := ⟨4, 2, 2⟩ }).afterTurns negotiation).marking =
      ⟨[0, 1, 1, 0, 0, 0, 0, 0]⟩ := by
    decide +kernel
  have hwaits : Net.offer.enablement ⟨4, 2, 2⟩ ⟨[0, 1, 1, 0, 1, 0, 0, 0]⟩ 3 = .ok (.disabled (some 5)) := rfl
  obtain ⟨hnet, hcase⟩ := unchanged_within_wider_limits hwithin
  have hlaunch : (Case.launch Net.offer 1 { analysis := ⟨4, 2, 2⟩ }).withAnalysis {} = Case.launch Net.offer 1 {} := rfl
  obtain ⟨hreplies, hend⟩ := hcase (Case.launch Net.offer 1 { analysis := ⟨4, 2, 2⟩ }) negotiation rfl hcut
  rw [hlaunch] at hreplies hend
  refine ⟨(hnet Net.offer ⟨[0, 1, 1, 0, 1, 0, 0, 0]⟩).2.1 3 _ hwaits, hreplies, ?_⟩
  rw [hend, Case.marking_withAnalysis]
  exact hmarking

end Workflow
