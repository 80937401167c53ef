import Mathlib.Data.List.Nodup
import Workflow.Net.Graph
/-!
# Names — places and transitions by name and by number

Names are unique within each of the two kinds, so finding a number by name and reading a name by number undo each other.
-/
namespace Workflow

section Unique

variable {α : Type} {name : α → String} {l : List α} {i j : Nat}

theorem inj_of_nodup_names (h : (l.map name).Nodup) (hi : i < l.length) (hj : j < l.length)
    (heq : name l[i] = name l[j]) : i = j := by
  have hi' : i < (l.map name).length := by rwa [List.length_map]
  have hj' : j < (l.map name).length := by rwa [List.length_map]
  have hnames : (l.map name)[i] = (l.map name)[j] := by
    rw [List.getElem_map, List.getElem_map]
    exact heq
  exact (List.Nodup.getElem_inj_iff h).1 hnames

theorem findIdx?_name (h : (l.map name).Nodup) (hi : i < l.length) :
    l.findIdx? (fun x => name x == name l[i]) = some i := by
  refine List.findIdx?_eq_some_iff_getElem.2 ⟨hi, beq_self_eq_true _, fun j hj heq => ?_⟩
  have hij := inj_of_nodup_names h (Nat.lt_trans hj hi) hi (eq_of_beq heq)
  omega

/-- Finding by name and reading the name undo each other. -/
theorem findIdx?_name_eq_some_iff {n : String} (h : (l.map name).Nodup) :
    l.findIdx? (fun x => name x == n) = some i ↔ (l[i]?).map name = some n := by
  constructor
  · intro hfind
    obtain ⟨hi, hname, -⟩ := List.findIdx?_eq_some_iff_getElem.1 hfind
    rw [List.getElem?_eq_getElem hi, Option.map_some, eq_of_beq hname]
  · intro hread
    obtain ⟨x, hx, rfl⟩ := Option.map_eq_some_iff.1 hread
    obtain ⟨hi, rfl⟩ := List.getElem?_eq_some_iff.1 hx
    exact findIdx?_name h hi

/-- Reading a name does not depend on what else the piece is. -/
theorem elim_name_congr {l' : List α} (h : (l.map name)[i]? = (l'.map name)[i]?) :
    (l[i]?).elim "" name = (l'[i]?).elim "" name := by
  have hread (k : List α) : (k[i]?).elim "" name = ((k.map name)[i]?).getD "" := by
    rw [List.getElem?_map]
    cases k[i]? <;> rfl
  rw [hread, hread, h]

theorem elim_name_of_findIdx? {n : String} (h : l.findIdx? (fun x => name x == n) = some i) :
    (l[i]?).elim "" name = n := by
  obtain ⟨hi, hname, -⟩ := List.findIdx?_eq_some_iff_getElem.1 h
  rw [List.getElem?_eq_getElem hi]
  exact eq_of_beq hname

theorem isSome_findIdx?_name {n : String} :
    (l.findIdx? (fun x => name x == n)).isSome = true ↔ ∃ x ∈ l, name x = n := by
  rw [List.findIdx?_isSome, List.any_eq_true]
  simp only [beq_iff_eq]

end Unique

namespace Graph

variable {g : Graph} {p q : PlaceId} {t u : TransitionId} {name : String}

theorem placeName_eq (hp : p < g.places.length) : g.placeName p = g.places[p].name := by
  unfold placeName
  rw [List.getElem?_eq_getElem hp]
  rfl

theorem transitionName_eq (ht : t < g.transitions.length) : g.transitionName t = g.transitions[t].name := by
  unfold transitionName
  rw [List.getElem?_eq_getElem ht]
  rfl

/-- Graphs with the same place names name their places alike. -/
theorem placeName_congr {h : Graph} (heq : (g.places.map Place.name)[p]? = (h.places.map Place.name)[p]?) :
    g.placeName p = h.placeName p := elim_name_congr heq

/-- Graphs with the same transition names name their transitions alike. -/
theorem transitionName_congr {h : Graph}
    (heq : (g.transitions.map Transition.name)[t]? = (h.transitions.map Transition.name)[t]?) :
    g.transitionName t = h.transitionName t := elim_name_congr heq

theorem placeName_inj (hp : p < g.places.length) (hq : q < g.places.length)
    (h : g.placeName p = g.placeName q) : p = q := by
  rw [placeName_eq hp, placeName_eq hq] at h
  exact inj_of_nodup_names g.place_names_nodup hp hq h

theorem transitionName_inj (ht : t < g.transitions.length) (hu : u < g.transitions.length)
    (h : g.transitionName t = g.transitionName u) : t = u := by
  rw [transitionName_eq ht, transitionName_eq hu] at h
  exact inj_of_nodup_names g.transition_names_nodup ht hu h

theorem placeId?_placeName (hp : p < g.places.length) : g.placeId? (g.placeName p) = some p := by
  rw [placeName_eq hp]
  exact findIdx?_name g.place_names_nodup hp

theorem placeName_of_placeId? (h : g.placeId? name = some p) : g.placeName p = name := elim_name_of_findIdx? h

theorem transitionName_of_transitionId? (h : g.transitionId? name = some t) : g.transitionName t = name :=
  elim_name_of_findIdx? h

theorem isSome_placeId? : (g.placeId? name).isSome = true ↔ ∃ p ∈ g.places, p.name = name := isSome_findIdx?_name

theorem isSome_transitionId? : (g.transitionId? name).isSome = true ↔ ∃ t ∈ g.transitions, t.name = name :=
  isSome_findIdx?_name

end Graph

end Workflow
