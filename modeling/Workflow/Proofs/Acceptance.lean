import Workflow.Net.Path
import Workflow.Proofs.Drawing
/-!
# Acceptance — exactly the workflow nets are built

A draft is built if, and only if, it has one source that nothing leads into, one sink that nothing leads out of, and
every node on a way from the one to the other.  The checks are spread over single nodes and two searches; the former
reject nothing that the latter would let pass (`defect?_eq_none_iff`), they only name the defect more closely.  Where
no node lacks an arc, the failure lists exactly the nodes without a way from the source, or else those without a way to
the sink (`build_ok_iff_isWorkflowNet`).
-/
namespace Workflow

namespace Graph

/-! ## What a workflow net is -/

def HasKind (g : Graph) (p : PlaceId) (k : PlaceKind) : Prop := (g.places[p]?).map Place.kind = some k

/-- One source place that nothing leads into, and one sink place that nothing leads out of. -/
structure HasTerminals (g : Graph) (source sink : PlaceId) : Prop where
  source_iff : ∀ p, g.HasKind p .source ↔ p = source
  sink_iff : ∀ p, g.HasKind p .sink ↔ p = sink
  not_entered : ∀ e, ¬ g.Leads e (.place source)
  not_left : ∀ e, ¬ g.Leads (.place sink) e

/-- Every node is on a way from the source to the sink. -/
def Connected (g : Graph) (source sink : PlaceId) : Prop :=
  ∀ e, g.HasElement e → g.Reaches (.place source) e ∧ g.Reaches e (.place sink)

/-- A node in the middle that no arc leads into, or out of, and the defect that names it. -/
inductive LooseEnd (g : Graph) : Defect → Prop
  | noInput {t : TransitionId} : t < g.transitions.length → (∀ e, ¬ g.Leads e (.transition t)) →
      LooseEnd g (.noInput (g.transitionName t))
  | noOutput {t : TransitionId} : t < g.transitions.length → (∀ e, ¬ g.Leads (.transition t) e) →
      LooseEnd g (.noOutput (g.transitionName t))
  | neverEntered {p : PlaceId} : g.HasKind p .internal → (∀ e, ¬ g.Leads e (.place p)) →
      LooseEnd g (.placeNeverEntered (g.placeName p))
  | neverLeft {p : PlaceId} : g.HasKind p .internal → (∀ e, ¬ g.Leads (.place p) e) →
      LooseEnd g (.placeNeverLeft (g.placeName p))

/-- These are the names of exactly the nodes with the property, in ascending order. -/
def Lists (g : Graph) (names : List String) (P : Element → Prop) : Prop :=
  ∃ nodes : List Element, nodes.Nodup ∧ (∀ e, e ∈ nodes ↔ g.HasElement e ∧ P e) ∧
    names.Perm (nodes.map g.elementName) ∧ names.Pairwise (· ≤ ·)

variable {g : Graph} {source sink p : PlaceId} {t : TransitionId} {defect : Defect}

/-! ## Arcs at a node -/

theorem preset_eq_nil_iff : g.preset t = [] ↔ ∀ e, ¬ g.Leads e (.transition t) := by
  rw [List.eq_nil_iff_forall_not_mem]
  constructor
  · intro h e hl
    cases hl with
    | into hp => exact h _ hp
  · exact fun h p hp => h _ (.into hp)

theorem postset_eq_nil_iff : g.postset t = [] ↔ ∀ e, ¬ g.Leads (.transition t) e := by
  rw [List.eq_nil_iff_forall_not_mem]
  constructor
  · intro h e hl
    cases hl with
    | outOf hp => exact h _ hp
  · exact fun h p hp => h _ (.outOf hp)

theorem producers_eq_nil_iff : g.producers p = [] ↔ ∀ e, ¬ g.Leads e (.place p) := by
  rw [List.eq_nil_iff_forall_not_mem]
  constructor
  · intro h e hl
    cases hl with
    | outOf hp => exact h _ (mem_producers.2 hp)
  · exact fun h t ht => h _ (.outOf (mem_producers.1 ht))

theorem consumers_eq_nil_iff : g.consumers p = [] ↔ ∀ e, ¬ g.Leads (.place p) e := by
  rw [List.eq_nil_iff_forall_not_mem]
  constructor
  · intro h e hl
    cases hl with
    | into hp => exact h _ (mem_consumers.2 hp)
  · exact fun h t ht => h _ (.into (mem_consumers.1 ht))

/-- A way to another node ends with an arc into it. -/
theorem Reaches.exists_leads_into {e f : Element} (h : g.Reaches e f) (hne : e ≠ f) : ∃ x, g.Leads x f := by
  induction h with
  | refl => exact absurd rfl hne
  | @step e x f hl _ ih =>
    by_cases hx : x = f
    · exact ⟨e, hx ▸ hl⟩
    · exact ih hx

/-- A way to another node starts with an arc out of the first. -/
theorem Reaches.exists_leads_outOf {e f : Element} (h : g.Reaches e f) (hne : e ≠ f) : ∃ x, g.Leads e x := by
  cases h with
  | refl => exact absurd rfl hne
  | step hl _ => exact ⟨_, hl⟩

/-! ## The terminal places -/

theorem mem_placesOfKind {k : PlaceKind} : p ∈ g.placesOfKind k ↔ g.HasKind p k := by
  unfold placesOfKind placeIds HasKind
  rw [List.mem_filter, List.mem_range, Option.any_eq_true, Option.map_eq_some_iff]
  simp only [beq_iff_eq]
  constructor
  · exact fun h => h.2
  · rintro ⟨q, hq, hk⟩
    exact ⟨(List.getElem?_eq_some_iff.1 hq).1, q, hq, hk⟩

theorem placesOfKind_eq_singleton {k : PlaceKind} : g.placesOfKind k = [p] ↔ ∀ q, g.HasKind q k ↔ q = p := by
  have hnodup : (g.placesOfKind k).Nodup := List.nodup_range.filter _
  have hsingle : [p].Nodup := List.nodup_singleton p
  constructor
  · intro h q
    rw [← mem_placesOfKind, h, List.mem_singleton]
  · intro h
    have hperm : (g.placesOfKind k).Perm [p] := (List.perm_ext_iff_of_nodup hnodup hsingle).2 fun q => by
      rw [mem_placesOfKind, List.mem_singleton]
      exact h q
    exact List.perm_singleton.1 hperm

theorem terminals_eq_ok_iff : g.terminals = .ok (source, sink) ↔
    (∀ p, g.HasKind p .source ↔ p = source) ∧ ∀ p, g.HasKind p .sink ↔ p = sink := by
  rw [← placesOfKind_eq_singleton, ← placesOfKind_eq_singleton]
  unfold terminals
  constructor
  · intro h
    split at h
    · rename_i hsource hsink
      cases h
      exact ⟨hsource, hsink⟩
    all_goals cases h
  · rintro ⟨hsource, hsink⟩
    rw [hsource, hsink]

theorem hasTerminals_iff : g.HasTerminals source sink ↔
    g.terminals = .ok (source, sink) ∧ g.producers source = [] ∧ g.consumers sink = [] := by
  rw [terminals_eq_ok_iff, producers_eq_nil_iff, consumers_eq_nil_iff]
  constructor
  · exact fun h => ⟨⟨h.source_iff, h.sink_iff⟩, h.not_entered, h.not_left⟩
  · exact fun ⟨⟨hsource, hsink⟩, hentered, hleft⟩ => ⟨hsource, hsink, hentered, hleft⟩

theorem HasKind.lt {k : PlaceKind} (h : g.HasKind p k) : p < g.places.length := by
  obtain ⟨q, hq, -⟩ := Option.map_eq_some_iff.1 h
  exact (List.getElem?_eq_some_iff.1 hq).1

/-! ## Single nodes -/

/-- The first defect of a single node. -/
def localDefect? (g : Graph) : Option Defect :=
  (g.transitionIds.findSome? g.transitionDefect?).or (g.placeIds.findSome? g.placeDefect?)

theorem defect?_eq (g : Graph) (source sink : PlaceId) :
    g.defect? source sink = g.localDefect?.or (g.connectionDefect? source sink) := by
  unfold defect? localDefect?
  rw [Option.or_assoc]

theorem localDefect?_eq_none_iff : g.localDefect? = none ↔
    (∀ t < g.transitions.length, g.transitionDefect? t = none) ∧ ∀ p < g.places.length, g.placeDefect? p = none := by
  unfold localDefect? transitionIds placeIds
  rw [Option.or_eq_none_iff, List.findSome?_eq_none_iff, List.findSome?_eq_none_iff]
  simp only [List.mem_range]

theorem looseEnd_of_transitionDefect? (ht : t < g.transitions.length) (h : g.transitionDefect? t = some defect) :
    g.LooseEnd defect := by
  unfold transitionDefect? at h
  split at h
  · rename_i hempty
    cases h
    exact .noInput ht (preset_eq_nil_iff.1 (List.isEmpty_iff.1 hempty))
  · split at h
    · rename_i hempty
      cases h
      exact .noOutput ht (postset_eq_nil_iff.1 (List.isEmpty_iff.1 hempty))
    · cases h

/-- Where the terminal places are as they should be, the checks of single places find loose ends and nothing else. -/
theorem looseEnd_of_placeDefect? (hg : g.HasTerminals source sink) (h : g.placeDefect? p = some defect) :
    g.LooseEnd defect := by
  unfold placeDefect? at h
  split at h
  · cases h
  · rename_i hkind
    have hp : p = source := (hg.source_iff p).1 hkind
    have hnone : g.producers p = [] := producers_eq_nil_iff.2 (hp ▸ hg.not_entered)
    rw [hnone] at h
    cases h
  · rename_i hkind
    have hp : p = sink := (hg.sink_iff p).1 hkind
    have hnone : g.consumers p = [] := consumers_eq_nil_iff.2 (hp ▸ hg.not_left)
    rw [hnone] at h
    cases h
  · rename_i hkind
    split at h
    · rename_i hempty
      cases h
      exact .neverEntered hkind (producers_eq_nil_iff.1 (List.isEmpty_iff.1 hempty))
    · split at h
      · rename_i hempty
        cases h
        exact .neverLeft hkind (consumers_eq_nil_iff.1 (List.isEmpty_iff.1 hempty))
      · cases h

theorem looseEnd_of_localDefect? (hg : g.HasTerminals source sink) (h : g.localDefect? = some defect) :
    g.LooseEnd defect := by
  unfold localDefect? at h
  rcases Option.or_eq_some_iff.1 h with h | ⟨-, h⟩
  · obtain ⟨t, ht, hdefect⟩ := List.exists_of_findSome?_eq_some h
    exact looseEnd_of_transitionDefect? (List.mem_range.1 ht) hdefect
  · obtain ⟨p, -, hdefect⟩ := List.exists_of_findSome?_eq_some h
    exact looseEnd_of_placeDefect? hg hdefect

/-- The checks of single nodes miss no loose end. -/
theorem not_looseEnd (h : g.localDefect? = none) : ¬ g.LooseEnd defect := by
  obtain ⟨htransition, hplace⟩ := localDefect?_eq_none_iff.1 h
  intro hloose
  cases hloose with
  | @noInput t ht hnone =>
    have hcheck := htransition t ht
    unfold transitionDefect? at hcheck
    rw [preset_eq_nil_iff.2 hnone] at hcheck
    cases hcheck
  | @noOutput t ht hnone =>
    have hcheck := htransition t ht
    unfold transitionDefect? at hcheck
    rw [postset_eq_nil_iff.2 hnone] at hcheck
    split at hcheck <;> cases hcheck
  | @neverEntered p hkind hnone =>
    have hcheck := hplace p hkind.lt
    unfold placeDefect? at hcheck
    rw [hkind, producers_eq_nil_iff.2 hnone] at hcheck
    cases hcheck
  | @neverLeft p hkind hnone =>
    have hcheck := hplace p hkind.lt
    unfold placeDefect? at hcheck
    rw [hkind, consumers_eq_nil_iff.2 hnone] at hcheck
    dsimp only at hcheck
    split at hcheck <;> cases hcheck

/-- On ways from the source to the sink there are no loose ends. -/
theorem Connected.not_looseEnd (hg : g.HasTerminals source sink) (h : g.Connected source sink) :
    ¬ g.LooseEnd defect := by
  have hinner {p : PlaceId} (hkind : g.HasKind p .internal) :
      Element.place source ≠ .place p ∧ Element.place p ≠ .place sink := by
    have hsource := (hg.source_iff source).2 rfl
    have hsink := (hg.sink_iff sink).2 rfl
    unfold HasKind at hkind hsource hsink
    refine ⟨fun heq => ?_, fun heq => ?_⟩
    · rw [Element.place.inj heq, hkind] at hsource
      cases hsource
    · rw [← Element.place.inj heq, hkind] at hsink
      cases hsink
  intro hloose
  cases hloose with
  | @noInput t ht hnone =>
    obtain ⟨e, he⟩ := (h (.transition t) ht).1.exists_leads_into nofun
    exact hnone e he
  | @noOutput t ht hnone =>
    obtain ⟨e, he⟩ := (h (.transition t) ht).2.exists_leads_outOf nofun
    exact hnone e he
  | @neverEntered p hkind hnone =>
    obtain ⟨e, he⟩ := (h (.place p) hkind.lt).1.exists_leads_into (hinner hkind).1
    exact hnone e he
  | @neverLeft p hkind hnone =>
    obtain ⟨e, he⟩ := (h (.place p) hkind.lt).2.exists_leads_outOf (hinner hkind).2
    exact hnone e he

/-! ## The two searches -/

/-- The nodes that do not touch the places of `seen`. -/
def missed (g : Graph) (seen : List PlaceId) (near : TransitionId → List PlaceId) : List Element :=
  (g.placeIds.filter (fun p => !seen.contains p)).map Element.place ++
    (g.transitionIds.filter (fun t => !(near t).any seen.contains)).map Element.transition

theorem missedNames_eq (seen : List PlaceId) (near : TransitionId → List PlaceId) :
    g.missedNames seen near = (g.missed seen near).map g.elementName := by
  unfold missedNames missed
  rw [List.map_append, List.map_map, List.map_map]
  rfl

theorem mem_missed {seen : List PlaceId} {near : TransitionId → List PlaceId} {e : Element} :
    e ∈ g.missed seen near ↔ g.HasElement e ∧ ¬ Touches seen near e := by
  unfold missed placeIds transitionIds
  cases e with
  | place p => simp [Touches, HasElement]
  | transition t => simp [Touches, HasElement]

theorem nodup_missed {seen : List PlaceId} {near : TransitionId → List PlaceId} : (g.missed seen near).Nodup := by
  have hplaces : ((g.placeIds.filter fun p => !seen.contains p).map Element.place).Nodup :=
    (List.nodup_range.filter _).map fun _ _ => Element.place.inj
  have htransitions :
      ((g.transitionIds.filter fun t => !(near t).any seen.contains).map Element.transition).Nodup :=
    (List.nodup_range.filter _).map fun _ _ => Element.transition.inj
  refine List.nodup_append.2 ⟨hplaces, htransitions, fun e he f hf heq => ?_⟩
  obtain ⟨p, -, rfl⟩ := List.mem_map.1 he
  obtain ⟨t, -, rfl⟩ := List.mem_map.1 hf
  cases heq

/-- The names of the missed nodes, sorted, list the nodes that are not touched. -/
theorem lists_mergeSort {seen : List PlaceId} {near : TransitionId → List PlaceId} {P : Element → Prop}
    (hP : ∀ e, Touches seen near e ↔ P e) :
    g.Lists (g.missedNames seen near).mergeSort (fun e => ¬ P e) := by
  refine ⟨g.missed seen near, nodup_missed, fun e => ?_, ?_, ?_⟩
  · rw [mem_missed, hP]
  · rw [← missedNames_eq]
    exact List.mergeSort_perm _ _
  · have htrans (a b c : String) (hab : decide (a ≤ b) = true) (hbc : decide (b ≤ c) = true) :
        decide (a ≤ c) = true :=
      decide_eq_true (String.le_trans (of_decide_eq_true hab) (of_decide_eq_true hbc))
    have htotal (a b : String) : (decide (a ≤ b) || decide (b ≤ a)) = true := by
      rw [Bool.or_eq_true, decide_eq_true_eq, decide_eq_true_eq]
      exact String.le_total a b
    exact (List.pairwise_mergeSort htrans htotal _).imp of_decide_eq_true

theorem missedNames_eq_nil_iff {seen : List PlaceId} {near : TransitionId → List PlaceId} {P : Element → Prop}
    (hP : ∀ e, Touches seen near e ↔ P e) :
    g.missedNames seen near = [] ↔ ∀ e, g.HasElement e → P e := by
  rw [missedNames_eq, List.map_eq_nil_iff, List.eq_nil_iff_forall_not_mem]
  refine forall_congr' fun e => ?_
  rw [mem_missed, hP, not_and, Classical.not_not]

/-- **What the two searches find**: nothing in a connected graph, else the nodes without a way from the source, and if
there are none, those without a way to the sink. -/
theorem connectionDefect?_cases (hsource : source < g.places.length) (hsink : sink < g.places.length) :
    (g.connectionDefect? source sink = none ∧ g.Connected source sink) ∨
    (∃ names, g.connectionDefect? source sink = some (.unreachable names) ∧
      (¬ ∀ e, g.HasElement e → g.Reaches (.place source) e) ∧
      g.Lists names (fun e => ¬ g.Reaches (.place source) e)) ∨
    ∃ names, g.connectionDefect? source sink = some (.deadEnd names) ∧
      (∀ e, g.HasElement e → g.Reaches (.place source) e) ∧ (¬ ∀ e, g.HasElement e → g.Reaches e (.place sink)) ∧
      g.Lists names (fun e => ¬ g.Reaches e (.place sink)) := by
  have hahead (e : Element) := touches_placesAhead (e := e) hsource
  have hbehind (e : Element) := touches_placesBehind (e := e) hsink
  unfold connectionDefect?
  split
  · rename_i hreached
    have hreached := (missedNames_eq_nil_iff hahead).1 hreached
    split
    · rename_i hreaching
      have hreaching := (missedNames_eq_nil_iff hbehind).1 hreaching
      exact .inl ⟨rfl, fun e he => ⟨hreached e he, hreaching e he⟩⟩
    · rename_i hmissed
      refine .inr (.inr ⟨_, rfl, hreached, fun hreaching => ?_, lists_mergeSort hbehind⟩)
      exact hmissed ((missedNames_eq_nil_iff hbehind).2 hreaching)
  · rename_i hmissed
    refine .inr (.inl ⟨_, rfl, fun hreached => ?_, lists_mergeSort hahead⟩)
    exact hmissed ((missedNames_eq_nil_iff hahead).2 hreached)

/-- **The checks let exactly the workflow nets pass.** -/
theorem defect?_eq_none_iff (h : g.terminals = .ok (source, sink)) :
    g.defect? source sink = none ↔ g.HasTerminals source sink ∧ g.Connected source sink := by
  obtain ⟨hkindSource, hkindSink⟩ := terminals_eq_ok_iff.1 h
  have hsource : source < g.places.length := ((hkindSource source).2 rfl).lt
  have hsink : sink < g.places.length := ((hkindSink sink).2 rfl).lt
  rw [defect?_eq, Option.or_eq_none_iff]
  constructor
  · rintro ⟨hlocal, hconnection⟩
    obtain ⟨-, hplace⟩ := localDefect?_eq_none_iff.1 hlocal
    have hentered := hplace source hsource
    have hleft := hplace sink hsink
    unfold placeDefect? at hentered hleft
    rw [(hkindSource source).2 rfl] at hentered
    rw [(hkindSink sink).2 rfl] at hleft
    dsimp only at hentered hleft
    have hproducers : g.producers source = [] := by
      by_cases hempty : (g.producers source).isEmpty = true
      · exact List.isEmpty_iff.1 hempty
      · rw [if_neg hempty] at hentered
        cases hentered
    have hconsumers : g.consumers sink = [] := by
      by_cases hempty : (g.consumers sink).isEmpty = true
      · exact List.isEmpty_iff.1 hempty
      · rw [if_neg hempty] at hleft
        cases hleft
    have hg := hasTerminals_iff.2 ⟨h, hproducers, hconsumers⟩
    rcases connectionDefect?_cases hsource hsink with ⟨-, hconnected⟩ | ⟨names, hsome, -⟩ | ⟨names, hsome, -⟩
    · exact ⟨hg, hconnected⟩
    · rw [hconnection] at hsome
      cases hsome
    · rw [hconnection] at hsome
      cases hsome
  · rintro ⟨hg, hconnected⟩
    refine ⟨?_, ?_⟩
    -- A defect of a single node would be a loose end, and a connected graph has none.
    · cases hlocal : g.localDefect? with
      | none => rfl
      | some defect => exact absurd (looseEnd_of_localDefect? hg hlocal) (hconnected.not_looseEnd hg)
    · rcases connectionDefect?_cases hsource hsink with ⟨hnone, -⟩ | ⟨names, -, hnot, -⟩ | ⟨names, -, -, hnot, -⟩
      · exact hnone
      · exact absurd (fun e he => (hconnected e he).1) hnot
      · exact absurd (fun e he => (hconnected e he).2) hnot

end Graph

/-! ## Building -/

namespace Draft

variable {d : Draft} {source sink : PlaceId}

/-- **What building answers**: the failed search for the terminal places, the first defect, or a net. -/
theorem build_cases (d : Draft) :
    (∃ defect, d.terminals = .error defect ∧ d.build = .error defect) ∨
      ∃ source sink, d.terminals = .ok (source, sink) ∧
        ((∃ defect, d.defect? source sink = some defect ∧ d.build = .error defect) ∨
          (d.defect? source sink = none ∧ ∃ net, d.build = .ok net)) := by
  unfold build
  split
  · rename_i defect ht
    exact .inl ⟨defect, ht, rfl⟩
  · rename_i source sink ht
    refine .inr ⟨source, sink, ht, ?_⟩
    split
    · rename_i defect hd
      exact .inl ⟨defect, hd, rfl⟩
    · rename_i hd
      exact .inr ⟨hd, _, rfl⟩

theorem build_of_defect? {defect : Defect} (h : d.terminals = .ok (source, sink))
    (hd : d.defect? source sink = some defect) : d.build = .error defect := by
  rcases d.build_cases with ⟨_, ht, -⟩ | ⟨source', sink', ht, hbuild⟩
  · rw [h] at ht
    cases ht
  · rw [h] at ht
    cases ht
    rcases hbuild with ⟨defect', hd', hbuild⟩ | ⟨hnone, -⟩
    · rw [hd] at hd'
      cases hd'
      exact hbuild
    · rw [hd] at hnone
      cases hnone

theorem build_ok_iff : (∃ net, d.build = .ok net) ↔
    ∃ source sink, d.terminals = .ok (source, sink) ∧ d.defect? source sink = none := by
  constructor
  · rintro ⟨net, hnet⟩
    rcases d.build_cases with ⟨_, -, hbuild⟩ | ⟨source, sink, ht, ⟨_, -, hbuild⟩ | ⟨hnone, -⟩⟩
    · rw [hnet] at hbuild
      cases hbuild
    · rw [hnet] at hbuild
      cases hbuild
    · exact ⟨source, sink, ht, hnone⟩
  · rintro ⟨source, sink, ht, hnone⟩
    rcases d.build_cases with ⟨_, ht', -⟩ | ⟨source', sink', ht', ⟨_, hd, -⟩ | ⟨-, hbuild⟩⟩
    · rw [ht] at ht'
      cases ht'
    · rw [ht] at ht'
      cases ht'
      rw [hnone] at hd
      cases hd
    · exact hbuild

/-- **Exactly the workflow nets are built.**  Whatever the edits are, the draft is the graph that they describe.  It is
built if it has its two terminal places and is connected by ways between them; otherwise there is a defect.  If all that
is wrong is the connection, then either some node lacks an arc, and one that does is named, or the failure lists the
nodes without a way from the source, or, if there are none, those without a way to the sink. -/
theorem build_ok_iff_isWorkflowNet (edits : List Edit) :
    (drawn edits).IsDrawnBy edits ∧
    ((∃ net, (drawn edits).build = .ok net) ↔
      ∃ source sink, (drawn edits).HasTerminals source sink ∧ (drawn edits).Connected source sink) ∧
    ((∃ defect, (drawn edits).build = .error defect) ↔
      ¬ ∃ source sink, (drawn edits).HasTerminals source sink ∧ (drawn edits).Connected source sink) ∧
    ∀ source sink, (drawn edits).HasTerminals source sink → ¬ (drawn edits).Connected source sink →
      (∃ defect, (drawn edits).LooseEnd defect ∧ (drawn edits).build = .error defect) ∨
      ((∀ defect, ¬ (drawn edits).LooseEnd defect) ∧
        ((∃ names, (drawn edits).build = .error (.unreachable names) ∧
          (¬ ∀ e, (drawn edits).HasElement e → (drawn edits).Reaches (.place source) e) ∧
          (drawn edits).Lists names (fun e => ¬ (drawn edits).Reaches (.place source) e)) ∨
        ∃ names, (drawn edits).build = .error (.deadEnd names) ∧
          (∀ e, (drawn edits).HasElement e → (drawn edits).Reaches (.place source) e) ∧
          (drawn edits).Lists names (fun e => ¬ (drawn edits).Reaches e (.place sink)))) := by
  have hterminals {source sink : PlaceId} (hg : (drawn edits).HasTerminals source sink) :
      (drawn edits).terminals = .ok (source, sink) := (Graph.hasTerminals_iff.1 hg).1
  have hok : (∃ net, (drawn edits).build = .ok net) ↔
      ∃ source sink, (drawn edits).HasTerminals source sink ∧ (drawn edits).Connected source sink := by
    rw [build_ok_iff]
    constructor
    · rintro ⟨source, sink, ht, hnone⟩
      exact ⟨source, sink, (Graph.defect?_eq_none_iff ht).1 hnone⟩
    · rintro ⟨source, sink, hnet⟩
      exact ⟨source, sink, hterminals hnet.1, (Graph.defect?_eq_none_iff (hterminals hnet.1)).2 hnet⟩
  refine ⟨isDrawnBy_drawn edits, hok, ?_, fun source sink hg hnot => ?_⟩
  · rw [← hok]
    cases (drawn edits).build with
    | ok net => simp
    | error defect => simp
  · have hsource : source < (drawn edits).places.length := ((hg.source_iff source).2 rfl).lt
    have hsink : sink < (drawn edits).places.length := ((hg.sink_iff sink).2 rfl).lt
    have hbuild {defect : Defect} (h : (drawn edits).defect? source sink = some defect) :
        (drawn edits).build = .error defect := build_of_defect? (hterminals hg) h
    rw [Graph.defect?_eq] at hbuild
    cases hlocal : (drawn edits).localDefect? with
    | some defect =>
      rw [hlocal] at hbuild
      exact .inl ⟨defect, Graph.looseEnd_of_localDefect? hg hlocal, hbuild rfl⟩
    | none =>
      rw [hlocal, Option.none_or] at hbuild
      refine .inr ⟨fun defect => Graph.not_looseEnd hlocal, ?_⟩
      rcases Graph.connectionDefect?_cases hsource hsink with ⟨-, hconnected⟩ | ⟨names, hsome, hmissed, hlists⟩ |
        ⟨names, hsome, hall, -, hlists⟩
      · exact absurd hconnected hnot
      · exact .inl ⟨names, hbuild hsome, hmissed, hlists⟩
      · exact .inr ⟨names, hbuild hsome, hall, hlists⟩

/-- One transition after the other. -/
def straight : List Edit :=
  [.place ⟨"i", .source⟩, .place ⟨"c", .internal⟩, .place ⟨"o", .sink⟩, .transition ⟨"a", .xor, .and⟩,
    .transition ⟨"b", .xor, .and⟩, .arc "i" "a" .input, .arc "c" "a" .output, .arc "c" "b" .input,
    .arc "o" "b" .output]

/-- Beside it, a circle that nothing leads into. -/
def circling : List Edit :=
  straight ++ [.place ⟨"l1", .internal⟩, .place ⟨"l2", .internal⟩, .transition ⟨"t1", .xor, .and⟩,
    .transition ⟨"t2", .xor, .and⟩, .arc "l1" "t1" .input, .arc "l2" "t1" .output, .arc "l2" "t2" .input,
    .arc "l1" "t2" .output]

theorem circling_listed :
    (drawn circling).build = .error (.unreachable ["l1", "l2", "t1", "t2"]) ∧
      (drawn circling).Lists ["l1", "l2", "t1", "t2"] (fun e => ¬ (drawn circling).Reaches (.place 0) e) := by
  have hterminals : (drawn circling).terminals = .ok (0, 2) := rfl
  have hg : (drawn circling).HasTerminals 0 2 := Graph.hasTerminals_iff.2 ⟨hterminals, rfl, rfl⟩
  have hlocal : (drawn circling).localDefect? = none := rfl
  have hsorted : ["l1", "l2", "t1", "t2"].mergeSort = ["l1", "l2", "t1", "t2"] :=
    List.mergeSort_of_pairwise (by decide)
  have hfound : (drawn circling).defect? 0 2 = some (.unreachable (["l1", "l2", "t1", "t2"].mergeSort)) := rfl
  rw [hsorted] at hfound
  have hbuild := build_of_defect? hterminals hfound
  have hnot : ¬ (drawn circling).Connected 0 2 := by
    intro hconnected
    have hnone := (Graph.defect?_eq_none_iff hterminals).2 ⟨hg, hconnected⟩
    rw [hfound] at hnone
    cases hnone
  obtain ⟨-, -, -, hlist⟩ := build_ok_iff_isWorkflowNet circling
  rcases hlist 0 2 hg hnot with ⟨defect, hloose, -⟩ | ⟨-, ⟨names, hnames, -, hlists⟩ | ⟨names, hnames, -⟩⟩
  · exact absurd hloose (Graph.not_looseEnd hlocal)
  · rw [hbuild] at hnames
    cases hnames
    exact ⟨hbuild, hlists⟩
  · rw [hbuild] at hnames
    cases hnames

/-- Beside it, a second start that is not declared as a source. -/
def undeclared : List Edit :=
  straight ++ [.place ⟨"start", .internal⟩, .transition ⟨"x", .xor, .and⟩, .arc "start" "x" .input,
    .arc "c" "x" .output]

/-- Only the connection is wrong here, and still no nodes are listed: a place without an incoming arc is named first. -/
theorem undeclared_not_listed :
    (drawn undeclared).HasTerminals 0 2 ∧ ¬ (drawn undeclared).Connected 0 2 ∧
      (drawn undeclared).build = .error (.placeNeverEntered "start") ∧
      ∀ names, (drawn undeclared).build ≠ .error (.unreachable names) ∧
        (drawn undeclared).build ≠ .error (.deadEnd names) := by
  have hterminals : (drawn undeclared).terminals = .ok (0, 2) := rfl
  have hg : (drawn undeclared).HasTerminals 0 2 := Graph.hasTerminals_iff.2 ⟨hterminals, rfl, rfl⟩
  have hfound : (drawn undeclared).defect? 0 2 = some (.placeNeverEntered "start") := rfl
  have hbuild := build_of_defect? hterminals hfound
  refine ⟨hg, fun hconnected => ?_, hbuild, fun names => ?_⟩
  · have hnone := (Graph.defect?_eq_none_iff hterminals).2 ⟨hg, hconnected⟩
    rw [hfound] at hnone
    cases hnone
  · rw [hbuild]
    exact ⟨nofun, nofun⟩

end Draft

end Workflow
