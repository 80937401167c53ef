import Workflow.Proofs.Balance
import Workflow.Proofs.Scan
/-!
# Room — more tokens hinder a firing in one way only

Once its selection suits the split and its join is satisfied, a firing fails for one reason at most: a place on which it
is to put a token is full (`fire_or_lacksRoom`).  More tokens never unsatisfy the join of a transition that does not wait.
An XOR-join may then take its token from another place than before, but that place held none before, so whatever else
is taken there, nothing is missed (`mem_joinTake_of_covers`).  So with more tokens the firing is out of room, or it leads
to more tokens (`fire_mono`).
-/
namespace Workflow

namespace Marking

variable {m n : Marking} {p : PlaceId}

/-- **To cover is to hold no fewer tokens anywhere**, also beyond the end of either marking. -/
theorem covers_iff : m.covers n = true ↔ Counts.Covers m.count n.count := by
  simp only [covers, List.all_eq_true, List.mem_range, decide_eq_true_eq]
  constructor
  · intro h p
    by_cases hp : p < max m.size n.size
    · exact h p hp
    · have hn : n.size ≤ p := by omega
      rw [count_eq_zero_of_size_le hn]
      exact Nat.zero_le _
  · exact fun h p _ => h p

/-- A place of the marking takes another token, unless it is full. -/
theorem add_or_full (hp : p < m.size) : (∃ m', m.add p 1 = .ok m') ∨
    m.count p = UInt32.size - 1 ∧ m.add p 1 = .error (.conflict (.countOverflow p)) := by
  have hget : m.counts[p]? = some m.counts[p] := List.getElem?_eq_getElem hp
  have hlt := UInt32.toNat_lt_size m.counts[p]
  unfold add
  rw [count_of_getElem? hget, hget]
  dsimp only
  split
  · exact .inl ⟨_, rfl⟩
  · refine .inr ⟨?_, rfl⟩
    omega

/-- **Tokens can be put on places of the marking, unless one of them is full.** -/
theorem putOn_or_full : ∀ {ps : List PlaceId} {m : Marking}, ps.Nodup → (∀ p ∈ ps, p < m.size) →
    (∃ m', m.putOn ps = .ok m') ∨
      ∃ p ∈ ps, m.count p = UInt32.size - 1 ∧ m.putOn ps = .error (.conflict (.countOverflow p))
  | [], m, _, _ => .inl ⟨m, rfl⟩
  | p :: ps, m, hn, hsize => by
    obtain ⟨hp, hn⟩ := List.nodup_cons.1 hn
    obtain ⟨hsizep, hsize⟩ := List.forall_mem_cons.1 hsize
    unfold putOn
    rcases add_or_full hsizep with ⟨m₁, hadd⟩ | ⟨hfull, hadd⟩
    · rw [hadd]
      dsimp only
      rcases putOn_or_full hn fun q hq => size_of_add hadd ▸ hsize q hq with hok | ⟨q, hq, hfull, herror⟩
      · exact .inl hok
      · rw [count_of_add hadd, if_neg (ne_of_mem_of_not_mem hq hp)] at hfull
        exact .inr ⟨q, List.mem_cons_of_mem p hq, hfull, herror⟩
    · rw [hadd]
      exact .inr ⟨p, List.mem_cons_self, hfull, rfl⟩

end Marking

/-- What is found among more is found among less, unless it is not there at all. -/
theorem find?_or_not {α : Type} {l : List α} {f g : α → Bool} {a : α} (h : ∀ b, f b = true → g b = true)
    (ha : l.find? g = some a) : l.find? f = some a ∨ f a = false := by
  obtain ⟨-, as, bs, hl, has⟩ := List.find?_eq_some_iff_append.1 ha
  cases hf : f a with
  | false => exact .inr rfl
  | true =>
    refine .inl (List.find?_eq_some_iff_append.2 ⟨hf, as, bs, hl, fun b hb => ?_⟩)
    have hg := has b hb
    cases hfb : f b with
    | false => rfl
    | true => simp [h b hfb] at hg

/-- More tokens stay more tokens, also if tokens are taken where there were none before. -/
theorem Counts.Covers.move_of_take {x y : Counts} {take take' put clear : List Nat} (h : y.Covers x)
    (htake : ∀ p ∈ take', p ∈ take ∨ x p = 0) : (y.move take' put clear).Covers (x.move take put clear) := by
  intro p
  by_cases hnone : x p = 0
  · simp only [Counts.move, hnone, Nat.zero_sub, Nat.zero_add]
    split
    · exact Nat.le_refl 0
    · exact Nat.le_add_left _ _
  · exact Counts.move_le_move (h p) (fun hp => (htake p hp).resolve_right hnone) id

namespace Net

/-- Transition `t` has all it needs to fire in `m` but room: `p` is one of the places that are to get a token, and it is
full, also after the taking. -/
structure LacksRoom (net : Net) (limits : AnalysisLimits) (m : Marking) (t : TransitionId) (s : Selection)
    (p : PlaceId) : Prop where
  suits : s.Suits net t
  selected : p ∈ s.places
  full : ∃ take, net.enablement limits m t = .ok (.enabled take) ∧
    m.count p - (if p ∈ take then 1 else 0) = UInt32.size - 1
  fails : net.fire limits m t s = .error (.conflict (.countOverflow p))

variable {net : Net} {limits : AnalysisLimits} {m m' n : Marking} {t : TransitionId} {s : Selection} {f : Firing}
  {take : List PlaceId} {p : PlaceId}

theorem fire_of_full {m₁ : Marking} (hcheck : s.check net t = .ok ())
    (hen : net.enablement limits m t = .ok (.enabled take)) (htake : m.takeFrom take = .ok m₁)
    (hput : m₁.putOn s.places = .error (.conflict (.countOverflow p))) :
    net.fire limits m t s = .error (.conflict (.countOverflow p)) := by
  unfold fire
  simp only [bind, Except.bind, hcheck, hen, htake, hput]

/-- **All that a firing can still lack is room**, once the selection suits the split and the join is satisfied. -/
theorem fire_or_lacksRoom (hsize : m.size = net.places.length) (hs : s.Suits net t)
    (hen : net.enablement limits m t = .ok (.enabled take)) :
    (∃ r, net.fire limits m t s = .ok r) ∨ ∃ p, net.LacksRoom limits m t s p := by
  have hcheck := Selection.check_ok_iff.2 hs
  obtain ⟨hnodup, hmarked, -⟩ := enablement_take hen
  obtain ⟨m₁, htake⟩ := Marking.exists_takeFrom hnodup fun p hp => (hmarked p hp).2
  obtain ⟨hsize₁, hcount₁⟩ := Marking.takeFrom_ok hnodup htake
  have hcounted : ∀ p < net.places.length, p < m₁.size := fun p hp => by rwa [hsize₁, hsize]
  have houtputs : ∀ p ∈ s.places, p < m₁.size := fun p hp =>
    hcounted p (Graph.lt_of_mem_postset (hs.outputs p hp)).1
  rcases Marking.putOn_or_full s.places_nodup houtputs with ⟨m₂, hput⟩ | ⟨p, hp, hfull, hput⟩
  · obtain ⟨hsize₂, -⟩ := Marking.putOn_ok s.places_nodup hput
    obtain ⟨⟨removed, m₃⟩, hclear⟩ := Marking.exists_clearPlaces_iff.2 fun p hp =>
      hsize₂ ▸ hcounted p (lt_of_mem_cancelledPlaces hp).1
    exact .inl ⟨_, fire_of_parts hcheck hen htake hput hclear⟩
  · rw [hcount₁] at hfull
    exact .inr ⟨p, hs, hp, ⟨take, hen, hfull⟩, fire_of_full hcheck hen htake hput⟩

/-! ## What a join takes when there is more -/

/-- What an enabled transition takes is what its join takes. -/
theorem take_eq_joinTake (h : net.enablement limits m t = .ok (.enabled take)) : take = net.joinTake m t := by
  have hdecided (hjoin : ∃ e, net.enablement limits m t = .ok e ∧ net.Decides limits m t e) :
      take = net.joinTake m t := by
    obtain ⟨e, he, hdecides⟩ := hjoin
    exact hdecides.take_eq take (Except.ok.inj (he.symm.trans h))
  cases hjoin : (net.transitions[t]?).map Transition.join with
  | none =>
    unfold enablement at h
    rw [hjoin] at h
    cases h
  | some join =>
    cases join with
    | and => exact hdecided (exists_decides_and hjoin)
    | xor => exact hdecided (exists_decides_xor hjoin)
    | or =>
      unfold joinTake
      rw [hjoin]
      exact (enablement_or_take hjoin h).1

/-- **With more tokens, a join takes where it took before, or where nothing was before.** -/
theorem mem_joinTake_of_covers (h : Counts.Covers m'.count m.count) (hp : p ∈ net.joinTake m' t) :
    p ∈ net.joinTake m t ∨ m.count p = 0 := by
  have hmarked (q : PlaceId) (hq : m.isMarked q = true) : m'.isMarked q = true :=
    Marking.isMarked_iff.2 (Nat.lt_of_lt_of_le (Marking.isMarked_iff.1 hq) (h q))
  have hnone (hq : m.isMarked p = false) : m.count p = 0 := by simpa [Marking.isMarked] using hq
  unfold joinTake at hp ⊢
  cases hjoin : (net.transitions[t]?).map Transition.join with
  | none =>
    rw [hjoin] at hp
    cases hp
  | some join =>
    rw [hjoin] at hp
    cases join with
    | and => exact .inl hp
    | xor =>
      rcases find?_or_not hmarked (Option.mem_toList.1 hp) with hfind | hq
      · exact .inl (Option.mem_toList.2 hfind)
      · exact .inr (hnone hq)
    | or =>
      cases hq : m.isMarked p with
      | false => exact .inr (hnone hq)
      | true => exact .inl (List.mem_filter.2 ⟨(List.mem_filter.1 hp).1, hq⟩)

/-- A join that does not wait stays satisfied when there is more. -/
theorem enabled_of_covers (hjoin : (net.transitions[t]?).map Transition.join ≠ some .or)
    (h : Counts.Covers m'.count m.count) (hen : net.enablement limits m t = .ok (.enabled take)) :
    ∃ take', net.enablement limits m' t = .ok (.enabled take') ∧ ∀ p ∈ take', p ∈ take ∨ m.count p = 0 := by
  obtain ⟨-, hmarked, e, he, hsub⟩ := enablement_take hen
  have hmarks : Counts.Marks m.count e := fun p hp => Marking.isMarked_iff.1 (hmarked p (hsub p hp)).2
  obtain ⟨take', hen'⟩ := enabled_of_marks limits hjoin he (h.marks hmarks)
  refine ⟨take', hen', fun p hp => ?_⟩
  rw [take_eq_joinTake hen]
  exact mem_joinTake_of_covers h (take_eq_joinTake hen' ▸ hp)

/-- **More tokens lead to more tokens.**  A transition that does not wait and can fire in a marking can fire in every
marking that covers it, with the same selection and a result that covers the other one, unless one of the selected
places is full there. -/
theorem fire_mono (hjoin : (net.transitions[t]?).map Transition.join ≠ some .or)
    (hsize : m'.size = net.places.length) (hcovers : m'.covers m = true)
    (hfire : net.fire limits m t s = .ok (f, n)) :
    (∃ f' n', net.fire limits m' t s = .ok (f', n') ∧ n'.covers n = true) ∨ ∃ p, net.LacksRoom limits m' t s p := by
  have h := Marking.covers_iff.1 hcovers
  obtain ⟨hcheck, take, hen, -, hcount⟩ := fire_ok hfire
  obtain ⟨take', hen', htake⟩ := enabled_of_covers hjoin h hen
  rcases fire_or_lacksRoom hsize (Selection.check_ok_iff.1 hcheck) hen' with ⟨⟨f', n'⟩, hfire'⟩ | hfull
  · obtain ⟨-, taken, htaken, -, hcount'⟩ := fire_ok hfire'
    obtain rfl : take' = taken := by
      cases hen'.symm.trans htaken
      rfl
    refine .inl ⟨f', n', hfire', Marking.covers_iff.2 ?_⟩
    rw [hcount, hcount']
    exact h.move_of_take htake
  · exact .inr hfull

/-- `t` takes from `v`, or else from `w`, puts on `w` and `o`, and empties `v`. -/
def merger : Net where
  places := [⟨"i", .source⟩, ⟨"v", .internal⟩, ⟨"w", .internal⟩, ⟨"o", .sink⟩]
  transitions := [⟨"a", .xor, .and⟩, ⟨"t", .xor, .and⟩]
  arcs := [⟨0, 0, .input⟩, ⟨1, 0, .output⟩, ⟨2, 0, .output⟩, ⟨1, 1, .input⟩, ⟨2, 1, .input⟩, ⟨2, 1, .output⟩,
    ⟨3, 1, .output⟩]
  source := 0
  sink := 3
  cancellations := [⟨1, .place 1⟩]

/-- With tokens on `v` as well, `t` takes one of them and not the one on `w`.  That leads to more, but there must be room
for the token that is put on `w`, which is now put beside those that were there. -/
theorem merger_mono :
    (∃ f, merger.fire {} ⟨[0, 0, 4294967295, 0]⟩ 1 (.all merger 1) = .ok (f, ⟨[0, 0, 4294967295, 1]⟩)) ∧
    merger.LacksRoom {} ⟨[0, 2, 4294967295, 0]⟩ 1 (.all merger 1) 2 ∧
    (∃ f, merger.fire {} ⟨[0, 0, 1, 0]⟩ 1 (.all merger 1) = .ok (f, ⟨[0, 0, 1, 1]⟩)) ∧
    ∃ f n, merger.fire {} ⟨[0, 2, 1, 0]⟩ 1 (.all merger 1) = .ok (f, n) ∧ n.covers ⟨[0, 0, 1, 1]⟩ = true ∧
      n = ⟨[0, 0, 2, 1]⟩ := by
  have hxor : (merger.transitions[1]?).map Transition.join ≠ some .or := by decide
  refine ⟨⟨_, rfl⟩, ?_, ⟨_, rfl⟩, ?_⟩
  · have hless : merger.fire {} ⟨[0, 0, 4294967295, 0]⟩ 1 (.all merger 1) =
        .ok (.ofParts 1 [2] [2, 3] [], ⟨[0, 0, 4294967295, 1]⟩) := rfl
    have hcovers : (⟨[0, 2, 4294967295, 0]⟩ : Marking).covers ⟨[0, 0, 4294967295, 0]⟩ = true := by decide
    rcases fire_mono hxor rfl hcovers hless with ⟨f, n, hfire, -⟩ | ⟨p, hfull⟩
    · cases hfire
    · cases hfull.fails
      exact hfull
  · have hless : merger.fire {} ⟨[0, 0, 1, 0]⟩ 1 (.all merger 1) =
        .ok (.ofParts 1 [2] [2, 3] [], ⟨[0, 0, 1, 1]⟩) := rfl
    have hcovers : (⟨[0, 2, 1, 0]⟩ : Marking).covers ⟨[0, 0, 1, 0]⟩ = true := by decide
    rcases fire_mono hxor rfl hcovers hless with ⟨f, n, hfire, hcovers⟩ | ⟨p, hfull⟩
    · refine ⟨f, n, hfire, hcovers, ?_⟩
      cases hfire
      rfl
    · cases hfull.fails

end Net

end Workflow
