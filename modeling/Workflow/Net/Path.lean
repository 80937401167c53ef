import Workflow.Net.Shape
/-!
# Path — ways along the arcs

A way is a chain of arcs, each followed in its direction.  The places that the checks of a shape collect
round by round are exactly those on the ways from, or to, a given place, and the transitions next to them are those
on these ways (`touches_placesAhead`, `touches_placesBehind`).
-/
namespace Workflow.Graph

variable {g : Graph}

/-- An arc leads straight from the one node to the other. -/
inductive Leads (g : Graph) : Element → Element → Prop
  | into {p : PlaceId} {t : TransitionId} : p ∈ g.preset t → Leads g (.place p) (.transition t)
  | outOf {t : TransitionId} {p : PlaceId} : p ∈ g.postset t → Leads g (.transition t) (.place p)

/-- There is a way from the one node to the other. -/
inductive Reaches (g : Graph) : Element → Element → Prop
  | refl (e : Element) : Reaches g e e
  | step {e f h : Element} : g.Leads e f → Reaches g f h → Reaches g e h

theorem Reaches.trans {e f h : Element} (hef : g.Reaches e f) (hfh : g.Reaches f h) : g.Reaches e h := by
  induction hef with
  | refl => exact hfh
  | step hl _ ih => exact .step hl (ih hfh)

theorem Leads.reaches {e f : Element} (h : g.Leads e f) : g.Reaches e f := .step h (.refl f)

/-- What every arc hands on, every way hands on. -/
theorem Reaches.hands_on {C : Element → Prop} (hC : ∀ {e f}, g.Leads e f → C e → C f) {e f : Element}
    (h : g.Reaches e f) (he : C e) : C f := by
  induction h with
  | refl => exact he
  | step hl _ ih => exact ih (hC hl he)

/-- What every arc hands back, every way hands back. -/
theorem Reaches.hands_back {C : Element → Prop} (hC : ∀ {e f}, g.Leads e f → C f → C e) {e f : Element}
    (h : g.Reaches e f) (hf : C f) : C e := by
  induction h with
  | refl => exact hf
  | step hl _ ih => exact hC hl (ih hf)

/-! ## The rounds find the ways -/

theorem mem_onward {s : List PlaceId} {q : PlaceId} {from_ to_ : TransitionId → List PlaceId} :
    q ∈ g.transitionIds.flatMap (fun t => if (from_ t).any s.contains then to_ t else []) ↔
      ∃ t < g.transitions.length, (∃ p ∈ from_ t, p ∈ s) ∧ q ∈ to_ t := by
  simp only [List.mem_flatMap, transitionIds, List.mem_range]
  constructor
  · rintro ⟨t, ht, h⟩
    split at h
    · rename_i hany
      obtain ⟨p, hp, hps⟩ := List.any_eq_true.1 hany
      exact ⟨t, ht, ⟨p, hp, List.contains_iff_mem.1 hps⟩, h⟩
    · cases h
  · rintro ⟨t, ht, ⟨p, hp, hps⟩, h⟩
    have hany : (from_ t).any s.contains = true := List.any_eq_true.2 ⟨p, hp, List.contains_iff_mem.2 hps⟩
    exact ⟨t, ht, by rwa [if_pos hany]⟩

/-- A place of `s`, or a transition with one of them among the places near to it. -/
def Touches (s : List PlaceId) (near : TransitionId → List PlaceId) : Element → Prop
  | .place q => q ∈ s
  | .transition t => ∃ x ∈ near t, x ∈ s

/-- **What the rounds ahead of a place touch is what a way from it reaches.** -/
theorem touches_placesAhead {p : PlaceId} {e : Element} (hp : p < g.places.length) :
    Touches (g.placesAhead p) g.preset e ↔ g.Reaches (.place p) e := by
  have hreached : ∀ q ∈ g.placesAhead p, g.Reaches (.place p) (.place q) := by
    refine closure_subset (fun s hs a ha => ?_) (fun a ha => ?_)
    · obtain ⟨t, -, ⟨x, hx, hxs⟩, hat⟩ := mem_onward.1 ha
      exact (hs x hxs).trans (.step (.into hx) (Leads.outOf hat).reaches)
    · rw [List.mem_singleton] at ha
      subst ha
      exact .refl _
  constructor
  · intro h
    cases e with
    | place q => exact hreached q h
    | transition t =>
      obtain ⟨x, hx, hxs⟩ := h
      exact (hreached x hxs).trans (Leads.into hx).reaches
  · intro h
    refine h.hands_on (C := Touches (g.placesAhead p) g.preset) (fun hl he => ?_)
      (subset_closure p (List.mem_singleton.2 rfl))
    cases hl with
    | into hmem => exact ⟨_, hmem, he⟩
    | outOf hmem =>
      refine mem_closure_of_mem_yields (fun s a ha => ?_) (fun a ha => ?_) _
        (mem_onward.2 ⟨_, (lt_of_mem_postset hmem).2, he, hmem⟩)
      · obtain ⟨t, -, -, hat⟩ := mem_onward.1 ha
        exact (lt_of_mem_postset hat).1
      · rw [List.mem_singleton] at ha
        rwa [ha]

/-- **What the rounds behind a place touch is what has a way to it.** -/
theorem touches_placesBehind {p : PlaceId} {e : Element} (hp : p < g.places.length) :
    Touches (g.placesBehind p) g.postset e ↔ g.Reaches e (.place p) := by
  have hreaching : ∀ q ∈ g.placesBehind p, g.Reaches (.place q) (.place p) := by
    refine closure_subset (fun s hs a ha => ?_) (fun a ha => ?_)
    · obtain ⟨t, -, ⟨x, hx, hxs⟩, hat⟩ := mem_onward.1 ha
      exact .step (.into hat) (.step (.outOf hx) (hs x hxs))
    · rw [List.mem_singleton] at ha
      subst ha
      exact .refl _
  constructor
  · intro h
    cases e with
    | place q => exact hreaching q h
    | transition t =>
      obtain ⟨x, hx, hxs⟩ := h
      exact .step (.outOf hx) (hreaching x hxs)
  · intro h
    refine h.hands_back (C := Touches (g.placesBehind p) g.postset) (fun hl he => ?_)
      (subset_closure p (List.mem_singleton.2 rfl))
    cases hl with
    | outOf hmem => exact ⟨_, hmem, he⟩
    | into hmem =>
      refine mem_closure_of_mem_yields (fun s a ha => ?_) (fun a ha => ?_) _
        (mem_onward.2 ⟨_, (lt_of_mem_preset hmem).2, he, hmem⟩)
      · obtain ⟨t, -, -, hat⟩ := mem_onward.1 ha
        exact (lt_of_mem_preset hat).1
      · rw [List.mem_singleton] at ha
        rwa [ha]

end Workflow.Graph
