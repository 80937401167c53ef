import Mathlib.Data.List.Find
import Workflow.Firing.Enablement
import Workflow.Net.Path
import Workflow.Proofs.Eager
import Workflow.Proofs.OrJoin
/-!
# Locality — which counts a decision reads

A marking may have been made for another net and be of any length.  A join that does not wait reads the counts of its
input places.  The analysis of an OR-join reads those of the places its restricted net is left with, and these include
busy places, whose numbers a longer marking may have counts for.  So the counts on the places of the net do not always
decide (`stray_token_waits`); with those on the busy places of the tasks that lead to the join they do
(`decision_of_counts`).
-/
namespace Workflow

/-! ## The same counts on a set of places -/

theorem filter_range_eq {f : Nat → Bool} {n k : Nat} (hnk : n ≤ k) (hf : ∀ p, n ≤ p → f p = false) :
    (List.range n).filter f = (List.range k).filter f := by
  obtain ⟨d, rfl⟩ := Nat.exists_eq_add_of_le hnk
  rw [List.range_add, List.filter_append]
  have hnil : ((List.range d).map (n + ·)).filter f = [] := by
    refine List.filter_eq_nil_iff.2 fun p hp => ?_
    obtain ⟨i, -, rfl⟩ := List.mem_map.1 hp
    rw [hf _ (Nat.le_add_right n i)]
    exact Bool.false_ne_true
  rw [hnil, List.append_nil]

namespace Marking

variable {m m' : Marking} {p : PlaceId} {f : PlaceId → Bool}

theorem isMarked_congr (h : m.count p = m'.count p) : m.isMarked p = m'.isMarked p := by
  rw [isMarked, isMarked, h]

theorem marked_filter_eq (m : Marking) (f : PlaceId → Bool) {n : Nat} (h : m.size ≤ n) :
    m.marked.filter f = (List.range n).filter (fun p => f p && m.isMarked p) := by
  rw [marked, List.filter_filter]
  refine filter_range_eq h fun p hp => ?_
  rw [isMarked, count_eq_zero_of_size_le hp]
  simp

/-- The marked ones among some places are the same where the counts are. -/
theorem marked_filter_congr (h : ∀ p, f p = true → m.count p = m'.count p) :
    m.marked.filter f = m'.marked.filter f := by
  rw [marked_filter_eq m f (Nat.le_max_left m.size m'.size), marked_filter_eq m' f (Nat.le_max_right m.size m'.size)]
  refine List.filter_congr fun p _ => ?_
  cases hf : f p with
  | false => rfl
  | true => rw [isMarked_congr (h p hf)]

end Marking

/-! ## What the search reads -/

namespace ResetNet

variable {r : ResetNet}

theorem restrictForward_congr {marked marked' : List Nat}
    (h : marked.filter r.alive.contains = marked'.filter r.alive.contains) :
    r.restrictForward marked = r.restrictForward marked' := by
  unfold restrictForward reachedForward
  rw [h]

end ResetNet

namespace Net

variable {net : Net} {limits : AnalysisLimits} {t u : TransitionId} {m m' : Marking} {r : ResetNet} {p : PlaceId}

/-! ## The part of the reset net that is searched -/

/-- The node that a place of the reset net belongs to: a place of the net itself, or the task that is busy. -/
def node (net : Net) (p : Nat) : Element :=
  if p < net.places.length then .place p else .transition (p - net.places.length)

theorem node_of_lt (hp : p < net.places.length) : net.node p = .place p := if_pos hp

theorem node_busyPlace (u : TransitionId) : net.node (net.busyPlace u) = .transition u := by
  unfold node busyPlace
  rw [if_neg (Nat.not_lt.2 (Nat.le_add_right _ _)), Nat.add_sub_cancel_left]

/-- A way leads from the node to an input place of `t`. -/
def LeadsTo (net : Net) (e : Element) (t : TransitionId) : Prop := ∃ q ∈ net.preset t, net.Reaches e (.place q)

theorem LeadsTo.back {e f : Element} (h : net.LeadsTo f t) (hl : net.Leads e f) : net.LeadsTo e t := by
  obtain ⟨q, hq, hway⟩ := h
  exact ⟨q, hq, .step hl hway⟩

theorem leadsTo_of_mem_preset (hp : p ∈ net.preset t) : net.LeadsTo (net.node p) t := by
  rw [node_of_lt (Graph.lt_of_mem_preset hp).1]
  exact ⟨p, hp, .refl _⟩

/-- **Going back from the input places of a join**, one only finds what leads to it. -/
theorem leadsTo_of_mem_alive (hr : net.toResetNet limits = .ok r)
    (hp : p ∈ ((r.withoutStartsOf t).restrictBackward (net.preset t)).alive) : net.LeadsTo (net.node p) t := by
  refine closure_subset (C := fun p => net.LeadsTo (net.node p) t) (fun s hs a ha => ?_) (fun a ha => ?_) p
    (ResetNet.mem_alive_keep.1 hp).2
  · obtain ⟨tr, htr, ha⟩ := List.mem_flatMap.1 ha
    split at ha
    · rename_i hany
      obtain ⟨b, hb, hbs⟩ := List.any_eq_true.1 hany
      have hlead := hs b (List.contains_iff_mem.1 hbs)
      rcases mem_transitions_withoutStartsOf hr htr with ⟨u, suffix, take, htake, -, rfl⟩ | ⟨u, suffix, put, hput, rfl⟩
      · rw [List.mem_singleton.1 hb, node_busyPlace] at hlead
        have hpre := mem_preset_of_mem_eagerTakes htake ha
        rw [node_of_lt (Graph.lt_of_mem_preset hpre).1]
        exact hlead.back (.into hpre)
      · have hpost := mem_postset_of_mem_splitChoices hput hb
        rw [node_of_lt (Graph.lt_of_mem_postset hpost).1] at hlead
        rw [List.mem_singleton.1 ha, node_busyPlace]
        exact hlead.back (.outOf hpost)
    · cases ha
  · exact leadsTo_of_mem_preset (List.mem_filter.1 ha).1

/-! ## Decisions -/

theorem orJoinNet_congr (h : ∀ p, net.LeadsTo (net.node p) t → m.count p = m'.count p) :
    net.orJoinNet limits t m = net.orJoinNet limits t m' := by
  unfold orJoinNet
  cases hr : net.toResetNet limits with
  | error failure => rfl
  | ok r =>
    have hforward := ResetNet.restrictForward_congr (Marking.marked_filter_congr fun p hp =>
      h p (leadsTo_of_mem_alive hr (List.contains_iff_mem.1 hp)))
    simp only [Except.map, hforward]

/-- **The analysis of a join reads no counts but those of what leads to it.** -/
theorem orJoinVerdict_congr (h : ∀ p, net.LeadsTo (net.node p) t → m.count p = m'.count p) :
    net.orJoinVerdict limits t m = net.orJoinVerdict limits t m' := by
  have hinput : ∀ p ∈ net.preset t, m.isMarked p = m'.isMarked p := fun p hp =>
    Marking.isMarked_congr (h p (leadsTo_of_mem_preset hp))
  unfold orJoinVerdict
  rw [← orJoinNet_congr h]
  cases hnet : net.orJoinNet limits t m with
  | error failure => rfl
  | ok restricted =>
    obtain ⟨r, hr, rfl⟩ := orJoinNet_ok hnet
    have hsearch : (((r.withoutStartsOf t).restrictBackward (net.preset t)).restrictForward m.marked).search limits
        m.count = ResetNet.search _ limits m'.count :=
      ResetNet.search_congr limits fun p hp => h p (leadsTo_of_mem_alive hr (ResetNet.mem_alive_keep.1 hp).1)
    dsimp only
    rw [hsearch, List.filter_congr hinput, List.filter_congr fun p hp => congrArg Bool.not (hinput p hp)]

/-- Of any other transition the analysis asks nothing. -/
theorem orJoinVerdict_eq_of_ne_or (hjoin : (net.transitions[t]?).map Transition.join ≠ some .or) :
    net.orJoinVerdict limits t m = net.orJoinVerdict limits t m' := by
  unfold orJoinVerdict orJoinNet
  cases htr : net.transitions[t]? with
  | none => rfl
  | some tr =>
    have hne : tr.join ≠ .or := fun h => hjoin (by rw [htr, Option.map_some, h])
    simp only [if_neg hne]

theorem enablement_congr (hinput : ∀ p ∈ net.preset t, m.isMarked p = m'.isMarked p)
    (hverdict : net.orJoinVerdict limits t m = net.orJoinVerdict limits t m') :
    net.enablement limits m t = net.enablement limits m' t := by
  unfold enablement
  rw [List.find?_congr hinput, List.find?_congr fun p hp => congrArg Bool.not (hinput p hp),
    List.filter_congr hinput, hverdict]

/-- **A decision depends on the counts of the places of the net**, and for an OR-join on those of the busy places of the
tasks that lead to it.  Other counts, of which a longer marking may have any number, play no part. -/
theorem decision_of_counts (hplaces : ∀ p, p < net.places.length → m.count p = m'.count p)
    (hbusy : (net.transitions[t]?).map Transition.join = some .or → ∀ u, net.LeadsTo (.transition u) t →
      m.count (net.busyPlace u) = m'.count (net.busyPlace u)) :
    net.enablement limits m t = net.enablement limits m' t ∧
      net.orJoinVerdict limits t m = net.orJoinVerdict limits t m' := by
  have hverdict : net.orJoinVerdict limits t m = net.orJoinVerdict limits t m' := by
    by_cases hjoin : (net.transitions[t]?).map Transition.join = some .or
    · refine orJoinVerdict_congr fun p hp => ?_
      rcases net.lt_or_eq_busyPlace p with hlt | ⟨u, rfl⟩
      · exact hplaces p hlt
      · rw [node_busyPlace] at hp
        exact hbusy hjoin u hp
    · exact orJoinVerdict_eq_of_ne_or hjoin
  have hinput : ∀ p ∈ net.preset t, m.isMarked p = m'.isMarked p := fun p hp =>
    Marking.isMarked_congr (hplaces p (Graph.lt_of_mem_preset hp).1)
  exact ⟨enablement_congr hinput hverdict, hverdict⟩

/-- A request `c` that goes on alone, unless `b` is to bring `h` first. -/
def errand : Net where
  places := [⟨"i", .source⟩, ⟨"c", .internal⟩, ⟨"d", .internal⟩, ⟨"h", .internal⟩, ⟨"o", .sink⟩]
  transitions := [⟨"a", .xor, .and⟩, ⟨"b", .xor, .and⟩, ⟨"t", .or, .and⟩]
  arcs := [⟨0, 0, .input⟩, ⟨1, 0, .output⟩, ⟨2, 0, .output⟩, ⟨2, 1, .input⟩, ⟨3, 1, .output⟩,
    ⟨1, 2, .input⟩, ⟨3, 2, .input⟩, ⟨4, 2, .output⟩]
  source := 0
  sink := 4

/-- The join itself does not lead to its input places, so tokens under the number of its busy place, and under numbers
of no place at all, are not seen. -/
theorem errand_ignores : errand.enablement {} ⟨[0, 1, 0, 0, 0, 0, 0, 1, 2]⟩ 2 = .ok (.enabled [1]) ∧
    errand.orJoinVerdict {} 2 ⟨[0, 1, 0, 0, 0, 0, 0, 1, 2]⟩ = .ok .enabled := by
  -- from the join on there is only the sink
  have hahead : ∀ {e f : Element}, errand.Leads e f → (e = .place 4 ∨ ∃ u, e = .transition (u + 2)) →
      f = .place 4 ∨ ∃ u, f = .transition (u + 2) := by
    intro e f hl he
    cases hl with
    | @into p u hmem =>
      obtain rfl : p = 4 := by simpa using he
      exact absurd (Graph.mem_preset.1 hmem) (by simp [errand])
    | @outOf t p hmem =>
      obtain ⟨u, rfl⟩ : ∃ u, t = u + 2 := by simpa using he
      have hlast : p = 4 ∧ u = 0 := by simpa [errand] using Graph.mem_postset.1 hmem
      exact .inl (congrArg Element.place hlast.1)
  have hbusy : ∀ u, errand.LeadsTo (.transition u) 2 → (Marking.mk [0, 1, 0, 0, 0]).count (errand.busyPlace u) =
      (Marking.mk [0, 1, 0, 0, 0, 0, 0, 1, 2]).count (errand.busyPlace u)
    | 0, _ => rfl
    | 1, _ => rfl
    | u + 2, ⟨q, hq, hway⟩ => by
      obtain h | ⟨v, h⟩ := hway.hands_on hahead (.inr ⟨u, rfl⟩)
      · cases h
        exact absurd hq (by decide)
      · cases h
  have hsame : errand.enablement {} ⟨[0, 1, 0, 0, 0]⟩ 2 = errand.enablement {} ⟨[0, 1, 0, 0, 0, 0, 0, 1, 2]⟩ 2 ∧
      errand.orJoinVerdict {} 2 ⟨[0, 1, 0, 0, 0]⟩ = errand.orJoinVerdict {} 2 ⟨[0, 1, 0, 0, 0, 0, 0, 1, 2]⟩ :=
    decision_of_counts (by decide) fun _ => hbusy
  exact ⟨hsame.1.symm, hsame.2.symm⟩

/-- A token under the number of the busy place of `b` is taken for `b` under way, though no token lies on any other
place of the net than before: the join waits for `h`. -/
theorem stray_token_waits : (∀ p, p < errand.places.length →
      (Marking.mk [0, 1, 0, 0, 0]).count p = (Marking.mk [0, 1, 0, 0, 0, 0, 1]).count p) ∧
    errand.orJoinVerdict {} 2 ⟨[0, 1, 0, 0, 0]⟩ = .ok .enabled ∧
    errand.orJoinVerdict {} 2 ⟨[0, 1, 0, 0, 0, 0, 1]⟩ = .ok (.liveBranch 3) ∧
    errand.enablement {} ⟨[0, 1, 0, 0, 0]⟩ 2 = .ok (.enabled [1]) ∧
    errand.enablement {} ⟨[0, 1, 0, 0, 0, 0, 1]⟩ 2 = .ok (.disabled (some 3)) :=
  ⟨by decide, rfl, rfl, rfl, rfl⟩

end Net

end Workflow
