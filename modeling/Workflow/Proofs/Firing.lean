import Workflow.Firing.Run
import Workflow.Proofs.Conversion
/-!
# Firing — a firing, count by count

A firing that succeeds moves tokens as the eager game does: from the places it takes, to the places selected, and off
the places it cancels (`fire_ok`).  An OR-join may take more than the eager game would, so what can be reached by
firings is covered by what can be reached in the game (`RunWithout.eagerRun`).
-/
namespace Workflow

/-! ## A preset names each place once -/

namespace Graph

theorem nodup_preset (g : Graph) (t : TransitionId) : (g.preset t).Nodup := g.nodup_placesBeside t .input

theorem nodup_postset (g : Graph) (t : TransitionId) : (g.postset t).Nodup := g.nodup_placesBeside t .output

end Graph

/-- **What the check of a selection has checked.** -/
theorem Selection.check_ok_iff {s : Selection} {net : Net} {t : TransitionId} :
    s.check net t = .ok () ↔ s.Suits net t := by
  constructor
  · intro h
    have hne := ne_nil_of_check h
    unfold check at h
    split at h
    · cases h
    · rename_i tr htr
      split at h
      · cases h
      · split at h
        · cases h
        · rename_i hfind
          have hsub : ∀ p ∈ s.places, p ∈ net.postset t := fun p hp => by
            simpa using List.find?_eq_none.1 hfind p hp
          refine ⟨hne, hsub, fun hsplit => ?_, fun hsplit => ?_⟩
          all_goals
            rw [htr, Option.map_some, Option.some.injEq] at hsplit
            rw [hsplit] at h
            dsimp only at h
            split at h
          · rename_i hlen
            intro p hp
            -- as many places as the postset has, each once, leave none of it out
            apply Decidable.byContradiction
            intro hmem
            have := length_le_of_nodup_subset (List.nodup_cons.2 ⟨hmem, s.places_nodup⟩)
              (List.forall_mem_cons.2 ⟨hp, hsub⟩)
            rw [List.length_cons] at this
            omega
          · cases h
          · rename_i hlen
            exact List.length_eq_one_iff.1 hlen
          · cases h
  · rintro ⟨hne, hsub, hwhole, hsingle⟩
    obtain ⟨p, hp⟩ := List.exists_mem_of_ne_nil _ hne
    have ht := (Graph.lt_of_mem_postset (hsub p hp)).2
    unfold check
    rw [List.getElem?_eq_getElem ht] at hwhole hsingle ⊢
    have hfind : s.places.find? (fun p => !(net.postset t).contains p) = none :=
      List.find?_eq_none.2 fun p hp => by simpa using hsub p hp
    dsimp only
    rw [if_neg (fun h => hne (List.isEmpty_iff.1 h)), hfind]
    dsimp only
    cases hsplit : (net.transitions[t]).split with
    | and =>
      have hall := hwhole (congrArg some hsplit)
      exact if_pos (Nat.le_antisymm (length_le_of_nodup_subset s.places_nodup hsub)
        (length_le_of_nodup_subset (net.nodup_postset t) hall))
    | xor =>
      obtain ⟨q, hq⟩ := hsingle (congrArg some hsplit)
      exact if_pos (by rw [hq]; rfl)
    | or => rfl

/-! ## What a firing does to the counts -/

namespace Marking

variable {m m' : Marking}

theorem isMarked_iff {p : PlaceId} : m.isMarked p = true ↔ 0 < m.count p := by
  rw [isMarked, decide_eq_true_eq]

theorem takeFrom_ok : ∀ {ps : List PlaceId} {m m' : Marking}, ps.Nodup → m.takeFrom ps = .ok m' →
    m'.size = m.size ∧ ∀ p, m'.count p = m.count p - if p ∈ ps then 1 else 0
  | [], m, m', _, h => by
    cases h
    simp
  | q :: ps, m, m', hn, h => by
    obtain ⟨hq, hn⟩ := List.nodup_cons.1 hn
    unfold takeFrom at h
    split at h
    · cases h
    · rename_i n hremove
      obtain ⟨hsize, hcount⟩ := takeFrom_ok hn h
      refine ⟨hsize.trans (size_of_remove hremove), fun p => ?_⟩
      rw [hcount, count_of_remove hremove]
      by_cases hp : p = q
      · subst hp
        simp [hq]
      · simp [hp]

theorem putOn_ok : ∀ {ps : List PlaceId} {m m' : Marking}, ps.Nodup → m.putOn ps = .ok m' →
    m'.size = m.size ∧ ∀ p, m'.count p = m.count p + if p ∈ ps then 1 else 0
  | [], m, m', _, h => by
    cases h
    simp
  | q :: ps, m, m', hn, h => by
    obtain ⟨hq, hn⟩ := List.nodup_cons.1 hn
    unfold putOn at h
    split at h
    · cases h
    · rename_i n hadd
      obtain ⟨hsize, hcount⟩ := putOn_ok hn h
      refine ⟨hsize.trans (size_of_add hadd), fun p => ?_⟩
      rw [hcount, count_of_add hadd]
      by_cases hp : p = q
      · subst hp
        simp [hq]
      · simp [hp]

theorem clearPlace_ok {p : PlaceId} {n : Nat} (h : m.clearPlace p = .ok (n, m')) :
    m'.size = m.size ∧ ∀ q, m'.count q = if q = p then 0 else m.count q := by
  unfold clearPlace at h
  split at h
  · cases h
  · rename_i c hc
    cases h
    have hp : p < m.size := (List.getElem?_eq_some_iff.1 hc).1
    exact ⟨by simp [size], fun q => by rw [count_set hp]; rfl⟩

theorem clearPlaces_ok : ∀ {ps : List PlaceId} {m m' : Marking} {removed : List (PlaceId × Nat)},
    m.clearPlaces ps = .ok (removed, m') →
    m'.size = m.size ∧ ∀ p, m'.count p = if p ∈ ps then 0 else m.count p
  | [], m, m', _, h => by
    cases h
    simp
  | q :: ps, m, m', _, h => by
    unfold clearPlaces at h
    split at h
    · cases h
    · rename_i n m₁ hclear
      split at h
      · cases h
      · rename_i removed m₂ hrest
        cases h
        obtain ⟨hsize₁, hcount₁⟩ := clearPlace_ok hclear
        obtain ⟨hsize, hcount⟩ := clearPlaces_ok hrest
        refine ⟨hsize.trans hsize₁, fun p => ?_⟩
        rw [hcount, hcount₁]
        by_cases hp : p = q <;> by_cases hmem : p ∈ ps <;> simp [hp, hmem]

end Marking

namespace Net

variable {net : Net} {limits : AnalysisLimits} {m m' : Marking} {t u : TransitionId} {s : Selection} {f : Firing}
  {take : List PlaceId}

/-- **How an OR-join is evaluated**: on its own it is clear when no input place is marked, or all are, and otherwise the
verdict decides. -/
theorem enablement_or {e : Enablement} (hjoin : (net.transitions[t]?).map Transition.join = some .or)
    (h : net.enablement limits m t = .ok e) :
    ((net.preset t).filter m.isMarked = [] ∧ e = .disabled none) ∨
      ((net.preset t).filter m.isMarked ≠ [] ∧ (∀ p ∈ net.preset t, m.isMarked p = true) ∧
        e = .enabled ((net.preset t).filter m.isMarked)) ∨
      ∃ v, net.orJoinVerdict limits t m = .ok v ∧ (net.preset t).filter m.isMarked ≠ [] ∧
        e = if v.isEnabled then .enabled ((net.preset t).filter m.isMarked) else .disabled v.liveBranch? := by
  unfold enablement at h
  rw [hjoin] at h
  dsimp only at h
  by_cases hnil : (net.preset t).filter m.isMarked = []
  · rw [if_pos (List.isEmpty_iff.2 hnil)] at h
    cases h
    exact .inl ⟨hnil, rfl⟩
  · rw [if_neg (fun h => hnil (List.isEmpty_iff.1 h))] at h
    split at h
    · rename_i hlen
      cases h
      exact .inr (.inl ⟨hnil, List.length_filter_eq_length_iff.1 hlen, rfl⟩)
    · obtain ⟨v, hv, rfl⟩ := exists_ok_of_map h
      exact .inr (.inr ⟨v, hv, hnil, rfl⟩)

theorem enablement_or_take (hjoin : (net.transitions[t]?).map Transition.join = some .or)
    (h : net.enablement limits m t = .ok (.enabled take)) :
    take = (net.preset t).filter m.isMarked ∧ take ≠ [] ∧
      ((∀ p ∈ net.preset t, m.isMarked p = true) ∨ net.orJoinVerdict limits t m = .ok .enabled) := by
  rcases enablement_or hjoin h with ⟨-, he⟩ | ⟨hne, hall, he⟩ | ⟨v, hv, hne, he⟩
  · cases he
  · cases he
    exact ⟨rfl, hne, .inl hall⟩
  · split at he
    · rename_i hen
      cases he
      have : v = .enabled := by simpa [Verdict.isEnabled] using hen
      exact ⟨rfl, hne, .inr (this ▸ hv)⟩
    · cases he

/-- **What an enabled transition would take**: marked input places of its own, each once, and at least the ones of some
way to satisfy its join. -/
theorem enablement_take (h : net.enablement limits m t = .ok (.enabled take)) :
    take.Nodup ∧ (∀ p ∈ take, p ∈ net.preset t ∧ m.isMarked p = true) ∧ ∃ e ∈ net.eagerTakes t, ∀ p ∈ e, p ∈ take := by
  cases hjoin : (net.transitions[t]?).map Transition.join with
  | none =>
    unfold enablement at h
    rw [hjoin] at h
    cases h
  | some join =>
    unfold eagerTakes
    rw [hjoin]
    cases join with
    | and =>
      unfold enablement at h
      rw [hjoin] at h
      dsimp only at h
      split at h
      · cases h
      · rename_i hnone
        cases h
        exact ⟨net.nodup_preset t, fun p hp => ⟨hp, by simpa using List.find?_eq_none.1 hnone p hp⟩, _,
          List.mem_singleton.2 rfl, fun p hp => hp⟩
    | xor =>
      unfold enablement at h
      rw [hjoin] at h
      dsimp only at h
      split at h
      · rename_i q hfind
        cases h
        have hq := List.mem_of_find?_eq_some hfind
        refine ⟨by simp, fun p hp => ?_, [q], List.mem_map.2 ⟨q, hq, rfl⟩, fun p hp => hp⟩
        rw [List.mem_singleton.1 hp]
        exact ⟨hq, List.find?_some hfind⟩
      · cases h
    | or =>
      obtain ⟨rfl, hne, -⟩ := enablement_or_take hjoin h
      obtain ⟨q, hq⟩ := List.exists_mem_of_ne_nil _ hne
      refine ⟨(net.nodup_preset t).filter _, fun p hp => List.mem_filter.1 hp, [q],
        List.mem_map.2 ⟨q, (List.mem_filter.1 hq).1, rfl⟩, fun p hp => ?_⟩
      rw [List.mem_singleton.1 hp]
      exact hq

/-- **A selection that suits a split is a choice of it**, if in another order. -/
theorem exists_splitChoice (h : s.Suits net t) : ∃ put ∈ net.splitChoices t, ∀ p, p ∈ put ↔ p ∈ s.places := by
  obtain ⟨hne, hsub, hwhole, hsingle⟩ := h
  obtain ⟨q, hq⟩ := List.exists_mem_of_ne_nil _ hne
  have ht := (Graph.lt_of_mem_postset (hsub q hq)).2
  unfold splitChoices
  rw [List.getElem?_eq_getElem ht, Option.map_some] at hwhole hsingle ⊢
  cases hsplit : (net.transitions[t]).split with
  | and => exact ⟨_, List.mem_singleton.2 rfl, fun p => ⟨hwhole (congrArg some hsplit) p, hsub p⟩⟩
  | xor =>
    obtain ⟨p, hp⟩ := hsingle (congrArg some hsplit)
    refine ⟨[p], List.mem_map.2 ⟨p, hsub p (by rw [hp]; exact List.mem_singleton.2 rfl), rfl⟩, fun p => ?_⟩
    rw [hp]
  | or =>
    refine ⟨(net.postset t).filter s.places.contains, mem_nonemptyChoices.2 ⟨List.filter_sublist, ?_⟩, fun p => ?_⟩
    · exact List.ne_nil_of_mem (List.mem_filter.2 ⟨hsub q hq, by simpa using hq⟩)
    · rw [List.mem_filter, List.contains_iff_mem]
      exact ⟨And.right, fun hp => ⟨hsub p hp, hp⟩⟩

/-- **A firing that succeeds, taken apart**: what the check, the join, the taking, the putting and the clearing gave. -/
theorem fire_parts (h : net.fire limits m t s = .ok (f, m')) : s.check net t = .ok () ∧
    ∃ take m₁ m₂ removed, net.enablement limits m t = .ok (.enabled take) ∧ m.takeFrom take = .ok m₁ ∧
      m₁.putOn s.places = .ok m₂ ∧ m₂.clearPlaces (net.cancelledPlaces t) = .ok (removed, m') ∧
      f = Firing.ofParts t take s.places removed := by
  unfold fire at h
  simp only [bind, Except.bind] at h
  split at h
  · cases h
  rename_i hcheck
  split at h
  · cases h
  rename_i e hen
  split at h
  · cases h
  rename_i take
  split at h
  · cases h
  rename_i m₁ htake
  split at h
  · cases h
  rename_i m₂ hput
  split at h
  · cases h
  rename_i cleared hclear
  obtain ⟨removed, m₃⟩ := cleared
  cases h
  exact ⟨hcheck, take, m₁, m₂, removed, hen, htake, hput, hclear, rfl⟩

/-- **What a firing that succeeds has done.** -/
theorem fire_ok (h : net.fire limits m t s = .ok (f, m')) : s.check net t = .ok () ∧
    ∃ take, net.enablement limits m t = .ok (.enabled take) ∧ m'.size = m.size ∧
      m'.count = Counts.move take s.places (net.cancelledPlaces t) m.count := by
  obtain ⟨hcheck, take, m₁, m₂, removed, hen, htake, hput, hclear, -⟩ := fire_parts h
  obtain ⟨hsize₁, hcount₁⟩ := Marking.takeFrom_ok (enablement_take hen).1 htake
  obtain ⟨hsize₂, hcount₂⟩ := Marking.putOn_ok s.places_nodup hput
  obtain ⟨hsize₃, hcount₃⟩ := Marking.clearPlaces_ok hclear
  refine ⟨hcheck, take, hen, hsize₃.trans (hsize₂.trans hsize₁), funext fun p => ?_⟩
  rw [hcount₃, hcount₂, hcount₁, Counts.move]

/-- **Firings reach no more than the eager game does**: an OR-join that takes all it finds leaves less behind. -/
theorem RunWithout.eagerRun (h : net.RunWithout limits t m m') : ∀ {x : Counts}, x.Covers m.count →
    ∃ y, net.EagerRun t x y ∧ y.Covers m'.count := by
  induction h with
  | nil m => exact fun {x} hx => ⟨x, .nil x, hx⟩
  | @cons u s f m m₁ m₂ hu hfire _ ih =>
    intro x hx
    obtain ⟨hcheck, take, hen, -, hcount⟩ := fire_ok hfire
    obtain ⟨-, hmarked, e, he, hsub⟩ := enablement_take hen
    obtain ⟨put, hput, hsame⟩ := exists_splitChoice (Selection.check_ok_iff.1 hcheck)
    have hmarks : x.Marks e := fun p hp =>
      Nat.lt_of_lt_of_le (Marking.isMarked_iff.1 (hmarked p (hsub p hp)).2) (hx p)
    have hcov : (x.move e put (net.cancelledPlaces u)).Covers m₁.count := by
      intro p
      rw [hcount]
      exact Counts.move_le_move (hx p) (hsub p) (hsame p).2
    obtain ⟨y, hrun, hy⟩ := ih hcov
    exact ⟨y, .cons hu (.mk he hput hmarks) hrun, hy⟩

end Net

end Workflow
