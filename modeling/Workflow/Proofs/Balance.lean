import Workflow.Case.Basic
import Workflow.Proofs.Firing
/-!
# Balance — a firing is exact

Nothing in a firing can fail but for a reason that is seen beforehand: once the selection suits the split and the join
is satisfied, all that is left to ask is whether the marking has a count for every place to be changed, and room for
what is put there (`Fireable`).  What has been fired is known to the last token: every count, every entry of the record,
and so the total (`Balanced`).  Otherwise nothing has happened at all (`fire_exact`).
-/
namespace Workflow

/-! ## Counts on places, each once -/

namespace Counts

variable {x : Counts}

/-- What a place holds is read off before it is emptied, so it is not there again if the place is named again. -/
theorem held_cons (x : Counts) (p : Nat) (ps : List Nat) :
    x.held (p :: ps) = if x p = 0 then (x.move [] [] [p]).held ps else (p, x p) :: (x.move [] [] [p]).held ps := by
  have hrest : ((ps.filter (fun q => !q == p)).eraseDups.filter (fun q => 0 < x q)).map (fun q => (q, x q)) =
      (x.move [] [] [p]).held ps := by
    rw [held, filter_eraseDups, List.filter_filter]
    have hfilter : ps.eraseDups.filter (fun q => decide (0 < x q) && !q == p) =
        ps.eraseDups.filter (fun q => decide (0 < x.move [] [] [p] q)) := by
      refine List.filter_congr fun q _ => ?_
      by_cases hq : q = p <;> simp [move, hq]
    rw [hfilter]
    refine List.map_congr_left fun q hq => ?_
    have hne : q ≠ p := by
      rintro rfl
      simp [move] at hq
    simp [move, hne]
  rw [held, List.eraseDups_cons, List.filter_cons]
  by_cases hp : x p = 0
  · rw [if_neg (by simp [hp]), hrest, if_pos hp]
  · rw [if_pos (by simpa using Nat.pos_of_ne_zero hp), List.map_cons, hrest, if_neg hp]

end Counts

namespace Marking

variable {m m' : Marking} {p : PlaceId} {n : Nat}

/-! ## When a count can be changed -/

theorem exists_add_iff : (∃ m', m.add p n = .ok m') ↔ p < m.size ∧ m.count p + n < UInt32.size := by
  unfold add count size
  by_cases hp : p < m.counts.length
  · rw [List.getElem?_eq_getElem hp, Option.elim_some]
    dsimp only
    split <;> simp_all
  · rw [List.getElem?_eq_none (Nat.le_of_not_lt hp)]
    simp [hp]

theorem exists_remove_iff : (∃ m', m.remove p n = .ok m') ↔ p < m.size ∧ n ≤ m.count p := by
  unfold remove count size
  by_cases hp : p < m.counts.length
  · rw [List.getElem?_eq_getElem hp, Option.elim_some]
    dsimp only
    split <;> simp_all
  · rw [List.getElem?_eq_none (Nat.le_of_not_lt hp)]
    simp [hp]

theorem exists_clearPlace_iff : (∃ r, m.clearPlace p = .ok r) ↔ p < m.size := by
  unfold clearPlace size
  by_cases hp : p < m.counts.length
  · rw [List.getElem?_eq_getElem hp]
    simp [hp]
  · rw [List.getElem?_eq_none (Nat.le_of_not_lt hp)]
    simp [hp]

theorem exists_takeFrom : ∀ {ps : List PlaceId} {m : Marking}, ps.Nodup → (∀ p ∈ ps, m.isMarked p = true) →
    ∃ m', m.takeFrom ps = .ok m'
  | [], m, _, _ => ⟨m, rfl⟩
  | p :: ps, m, hn, h => by
    obtain ⟨hp, hn⟩ := List.nodup_cons.1 hn
    have hmarked := h p List.mem_cons_self
    obtain ⟨m₁, hremove⟩ := exists_remove_iff.2 ⟨lt_size_of_isMarked hmarked, isMarked_iff.1 hmarked⟩
    obtain ⟨m', hrest⟩ := exists_takeFrom (m := m₁) hn fun q hq => by
      rw [isMarked_iff, count_of_remove hremove, if_neg (ne_of_mem_of_not_mem hq hp)]
      exact isMarked_iff.1 (h q (List.mem_cons_of_mem p hq))
    refine ⟨m', ?_⟩
    rw [takeFrom, hremove]
    exact hrest

theorem exists_putOn_iff : ∀ {ps : List PlaceId} {m : Marking}, ps.Nodup →
    ((∃ m', m.putOn ps = .ok m') ↔ ∀ p ∈ ps, p < m.size ∧ m.count p + 1 < UInt32.size)
  | [], m, _ => by simp [putOn]
  | p :: ps, m, hn => by
    obtain ⟨hp, hn⟩ := List.nodup_cons.1 hn
    rw [List.forall_mem_cons, ← exists_add_iff (n := 1), putOn]
    cases hadd : m.add p 1 with
    | error failure => simp
    | ok m₁ =>
      have hsame : ∀ q ∈ ps, m₁.count q = m.count q := fun q hq => by
        rw [count_of_add hadd, if_neg (ne_of_mem_of_not_mem hq hp)]
      dsimp only
      rw [exists_putOn_iff hn, size_of_add hadd]
      constructor
      · exact fun h => ⟨⟨m₁, rfl⟩, fun q hq => hsame q hq ▸ h q hq⟩
      · exact fun h q hq => (hsame q hq).symm ▸ h.2 q hq

theorem exists_clearPlaces_iff : ∀ {ps : List PlaceId} {m : Marking},
    (∃ r, m.clearPlaces ps = .ok r) ↔ ∀ p ∈ ps, p < m.size
  | [], m => by simp [clearPlaces]
  | p :: ps, m => by
    rw [List.forall_mem_cons, ← exists_clearPlace_iff, clearPlaces]
    cases hclear : m.clearPlace p with
    | error failure => simp
    | ok r =>
      obtain ⟨n, m₁⟩ := r
      dsimp only
      rw [← (clearPlace_ok hclear).1, ← exists_clearPlaces_iff]
      cases m₁.clearPlaces ps <;> simp

/-! ## What a change does to the total -/

theorem total_set {c : UInt32} (h : p < m.size) :
    (⟨m.counts.set p c⟩ : Marking).total + m.count p = m.total + c.toNat := by
  obtain ⟨counts⟩ := m
  unfold total count
  dsimp only [size] at h ⊢
  induction counts generalizing p with
  | nil => cases h
  | cons d counts ih =>
    cases p with
    | zero =>
      simp only [List.set_cons_zero, List.foldr_cons, List.getElem?_cons_zero, Option.elim_some]
      omega
    | succ p =>
      have hrest := ih (Nat.lt_of_succ_lt_succ h)
      simp only [List.set_cons_succ, List.foldr_cons, List.getElem?_cons_succ]
      omega

theorem total_of_add (h : m.add p n = .ok m') : m'.total = m.total + n := by
  unfold add at h
  split at h
  · cases h
  · rename_i c hc
    split at h
    · rename_i hlt
      cases h
      have hset := total_set (m := m) (c := UInt32.ofNat (c.toNat + n)) (List.getElem?_eq_some_iff.1 hc).1
      rw [toNat_ofNat_of_lt_size hlt, count_of_getElem? hc] at hset
      omega
    · cases h

theorem total_of_remove (h : m.remove p n = .ok m') : m'.total + n = m.total := by
  unfold remove at h
  split at h
  · cases h
  · rename_i c hc
    split at h
    · rename_i hle
      cases h
      have hset := total_set (m := m) (c := UInt32.ofNat (c.toNat - n)) (List.getElem?_eq_some_iff.1 hc).1
      have hlt := Nat.lt_of_le_of_lt (Nat.sub_le c.toNat n) (UInt32.toNat_lt_size c)
      rw [toNat_ofNat_of_lt_size hlt, count_of_getElem? hc] at hset
      omega
    · cases h

theorem total_of_clearPlace (h : m.clearPlace p = .ok (n, m')) : m'.total + n = m.total := by
  unfold clearPlace at h
  split at h
  · cases h
  · rename_i c hc
    cases h
    have hset := total_set (m := m) (c := 0) (List.getElem?_eq_some_iff.1 hc).1
    rwa [count_of_getElem? hc] at hset

theorem total_of_takeFrom : ∀ {ps : List PlaceId} {m m' : Marking}, m.takeFrom ps = .ok m' →
    m'.total + ps.length = m.total
  | [], m, m', h => by
    cases h
    rfl
  | p :: ps, m, m', h => by
    unfold takeFrom at h
    split at h
    · cases h
    · rename_i m₁ hremove
      rw [List.length_cons, ← total_of_remove hremove, ← total_of_takeFrom h, Nat.add_assoc]

theorem total_of_putOn : ∀ {ps : List PlaceId} {m m' : Marking}, m.putOn ps = .ok m' →
    m'.total = m.total + ps.length
  | [], m, m', h => by
    cases h
    rfl
  | p :: ps, m, m', h => by
    unfold putOn at h
    split at h
    · cases h
    · rename_i m₁ hadd
      rw [total_of_putOn h, total_of_add hadd, List.length_cons]
      omega

/-- **What an emptying tells and takes**: what the places held, each once. -/
theorem clearPlaces_removed : ∀ {ps : List PlaceId} {m m' : Marking} {removed : List (PlaceId × Nat)},
    m.clearPlaces ps = .ok (removed, m') →
    removed = Counts.held m.count ps ∧ m'.total + removed.foldr (fun e n => e.2 + n) 0 = m.total
  | [], m, m', _, h => by
    cases h
    exact ⟨rfl, rfl⟩
  | p :: ps, m, m', _, h => by
    unfold clearPlaces at h
    split at h
    · cases h
    · rename_i n m₁ hclear
      split at h
      · cases h
      · rename_i removed m₂ hrest
        cases h
        obtain ⟨hremoved, htotal⟩ := clearPlaces_removed hrest
        have hfirst := total_of_clearPlace hclear
        have hcount : m₁.count = Counts.move [] [] [p] m.count := funext fun q => by
          rw [(clearPlace_ok hclear).2, Counts.move]
          simp
        rw [Counts.held_cons, ← hcount, ← hremoved, ← eq_count_of_clearPlace hclear]
        refine ⟨rfl, ?_⟩
        split
        · omega
        · rw [List.foldr_cons]
          omega

end Marking

theorem Firing.cancelled_ofParts (t : TransitionId) (take put : List PlaceId) (removed : List (PlaceId × Nat)) :
    (ofParts t take put removed).cancelled = removed := by
  have hnone (l : List PlaceId) : l.filterMap (fun _ => (none : Option (PlaceId × Nat))) = [] :=
    List.filterMap_eq_nil_iff.2 fun _ _ => rfl
  unfold cancelled ofParts
  rw [List.filterMap_append, List.filterMap_append, List.filterMap_map, List.filterMap_map, List.filterMap_map]
  change take.filterMap (fun _ => none) ++ put.filterMap (fun _ => none) ++ removed.filterMap some = removed
  rw [hnone, hnone, List.filterMap_some]
  rfl

namespace Net

/-! ## When a transition can fire, and what has happened then -/

/-- In `m`, transition `t` can take the tokens of `take` and put one on each selected place. -/
structure Fireable (net : Net) (limits : AnalysisLimits) (m : Marking) (t : TransitionId) (s : Selection)
    (take : List PlaceId) : Prop where
  known : t < net.transitions.length
  suits : s.Suits net t
  enabled : net.enablement limits m t = .ok (.enabled take)
  counted : ∀ p, p ∈ s.places ∨ p ∈ net.cancelledPlaces t → p < m.size
  room : ∀ p ∈ s.places, m.count p - (if p ∈ take then 1 else 0) ≠ UInt32.size - 1

/-- From `m` to `m'`, transition `t` has taken the tokens of `take`, put one on each selected place and then emptied
what it cancels, and `f` is the record of that and of nothing else. -/
structure Balanced (net : Net) (t : TransitionId) (s : Selection) (take : List PlaceId) (m : Marking) (f : Firing)
    (m' : Marking) : Prop where
  size : m'.size = m.size
  emptied : ∀ p ∈ net.cancelledPlaces t, m'.count p = 0
  moved : ∀ p, p ∉ net.cancelledPlaces t →
    m'.count p = m.count p - (if p ∈ take then 1 else 0) + (if p ∈ s.places then 1 else 0)
  transition : f.transition = t
  changes : f.changes = take.map (Change.consume · t) ++ s.places.map (Change.produce · t) ++
    (Counts.held (Counts.move take s.places [] m.count) (net.cancelledPlaces t)).map (fun e => Change.cancel e.1 t e.2)
  total : m'.total + take.length + f.removed = m.total + s.places.length

variable {net : Net} {limits : AnalysisLimits} {m m' : Marking} {t : TransitionId} {s : Selection} {f : Firing}
  {take : List PlaceId}

/-- The converse of `fire_parts`. -/
theorem fire_of_parts {m₁ m₂ : Marking} {removed : List (PlaceId × Nat)} (hcheck : s.check net t = .ok ())
    (hen : net.enablement limits m t = .ok (.enabled take)) (htake : m.takeFrom take = .ok m₁)
    (hput : m₁.putOn s.places = .ok m₂) (hclear : m₂.clearPlaces (net.cancelledPlaces t) = .ok (removed, m')) :
    net.fire limits m t s = .ok (Firing.ofParts t take s.places removed, m') := by
  unfold fire
  simp only [bind, Except.bind, hcheck, hen, htake, hput, hclear, pure, Except.pure]

theorem fireable_of_fire (h : net.fire limits m t s = .ok (f, m')) : ∃ take, net.Fireable limits m t s take := by
  obtain ⟨hcheck, take, m₁, m₂, removed, hen, htake, hput, hclear, -⟩ := fire_parts h
  have hsuits := Selection.check_ok_iff.1 hcheck
  obtain ⟨q, hq⟩ := List.exists_mem_of_ne_nil _ hsuits.nonempty
  obtain ⟨hsize₁, hcount₁⟩ := Marking.takeFrom_ok (enablement_take hen).1 htake
  obtain ⟨hsize₂, -⟩ := Marking.putOn_ok s.places_nodup hput
  have hroom := (Marking.exists_putOn_iff s.places_nodup).1 ⟨m₂, hput⟩
  have hheld := Marking.exists_clearPlaces_iff.1 ⟨_, hclear⟩
  refine ⟨take, (Graph.lt_of_mem_postset (hsuits.outputs q hq)).2, hsuits, hen, ?_, fun p hp => ?_⟩
  · rintro p (hp | hp)
    · exact hsize₁ ▸ (hroom p hp).1
    · exact hsize₁ ▸ hsize₂ ▸ hheld p hp
  · have hlt := (hroom p hp).2
    rw [hcount₁] at hlt
    exact Nat.ne_of_lt (Nat.lt_of_add_lt_add_right hlt)

theorem balanced_of_fire (h : net.fire limits m t s = .ok (f, m'))
    (hen : net.enablement limits m t = .ok (.enabled take)) : net.Balanced t s take m f m' := by
  obtain ⟨-, take₁, hen₁, hsize, hcount⟩ := fire_ok h
  obtain ⟨-, take₂, m₁, m₂, removed, hen₂, htake, hput, hclear, rfl⟩ := fire_parts h
  obtain rfl : take = take₁ := by
    cases hen.symm.trans hen₁
    rfl
  obtain rfl : take = take₂ := by
    cases hen.symm.trans hen₂
    rfl
  obtain ⟨hremoved, htotal⟩ := Marking.clearPlaces_removed hclear
  refine ⟨hsize, fun p hp => ?_, fun p hp => ?_, rfl, ?_, ?_⟩
  · rw [hcount, Counts.move, if_pos hp]
  · rw [hcount, Counts.move, if_neg hp]
  · have hput' : m₂.count = Counts.move take s.places [] m.count := funext fun p => by
      rw [(Marking.putOn_ok s.places_nodup hput).2, (Marking.takeFrom_ok (enablement_take hen).1 htake).2, Counts.move,
        if_neg List.not_mem_nil]
    rw [← hput', ← hremoved]
    rfl
  · have htaken := Marking.total_of_takeFrom htake
    have hmade := Marking.total_of_putOn hput
    rw [Firing.removed, Firing.cancelled_ofParts]
    omega

theorem Fireable.exists_fire (h : net.Fireable limits m t s take) : ∃ r, net.fire limits m t s = .ok r := by
  obtain ⟨hnodup, hmarked, -⟩ := enablement_take h.enabled
  obtain ⟨m₁, htake⟩ := Marking.exists_takeFrom hnodup fun p hp => (hmarked p hp).2
  obtain ⟨hsize₁, hcount₁⟩ := Marking.takeFrom_ok hnodup htake
  obtain ⟨m₂, hput⟩ := (Marking.exists_putOn_iff s.places_nodup).2 fun p hp => by
    have hroom := h.room p hp
    have hlt := m₁.count_lt_size p
    rw [← hcount₁] at hroom
    refine ⟨hsize₁ ▸ h.counted p (.inl hp), ?_⟩
    unfold UInt32.size at hroom hlt ⊢
    omega
  obtain ⟨hsize₂, -⟩ := Marking.putOn_ok s.places_nodup hput
  obtain ⟨⟨removed, m'⟩, hclear⟩ := Marking.exists_clearPlaces_iff.2 fun p hp =>
    hsize₂ ▸ hsize₁ ▸ h.counted p (.inr hp)
  exact ⟨_, fire_of_parts (Selection.check_ok_iff.2 h.suits) h.enabled htake hput hclear⟩

/-- **A firing is exact, and all or nothing.**  It succeeds just when the transition can fire, and then every count, the
record and the total are what they have to be.  A case whose firing fails is left as it was. -/
theorem fire_exact (net : Net) (limits : AnalysisLimits) (m : Marking) (t : TransitionId) (s : Selection) :
    ((∃ r, net.fire limits m t s = .ok r) ↔ ∃ take, net.Fireable limits m t s take) ∧
      (∀ f m', net.fire limits m t s = .ok (f, m') →
        ∃ take, net.enablement limits m t = .ok (.enabled take) ∧ net.Balanced t s take m f m') ∧
      ∀ failure, net.fire limits m t s = .error failure →
        ∀ c : Case, c.net = net → c.limits.analysis = limits → c.marking = m → c.state = .active →
          c.fire t s = (.error failure, c) := by
  refine ⟨⟨fun ⟨_, h⟩ => fireable_of_fire h, fun ⟨_, h⟩ => h.exists_fire⟩, fun f m' h => ?_, ?_⟩
  · obtain ⟨take, hfireable⟩ := fireable_of_fire h
    exact ⟨take, hfireable.enabled, balanced_of_fire h hfireable.enabled⟩
  · rintro failure h c rfl rfl rfl hactive
    unfold Case.fire Case.tryFire
    rw [if_pos hactive, h]

/-- `t` takes from `x`, puts on `x` and `y`, and empties `x`. -/
def refill : Net where
  places := [⟨"i", .source⟩, ⟨"x", .internal⟩, ⟨"y", .internal⟩, ⟨"o", .sink⟩]
  transitions := [⟨"a", .xor, .and⟩, ⟨"t", .and, .and⟩, ⟨"b", .xor, .xor⟩]
  arcs := [⟨0, 0, .input⟩, ⟨1, 0, .output⟩, ⟨1, 1, .input⟩, ⟨1, 1, .output⟩, ⟨2, 1, .output⟩, ⟨2, 2, .input⟩,
    ⟨3, 2, .output⟩]
  source := 0
  sink := 3
  cancellations := [⟨1, .place 1⟩]

/-- On `y` there is room for one token, and for no more. -/
theorem refill_exact :
    refill.Balanced 1 (.all refill 1) [1] ⟨[0, 2, 4294967294, 0]⟩
      ⟨1, [.consume 1 1, .produce 1 1, .produce 2 1, .cancel 1 1 2]⟩ ⟨[0, 0, 4294967295, 0]⟩ ∧
    (¬ ∃ take, refill.Fireable {} ⟨[0, 4294967295, 4294967295, 0]⟩ 1 (.all refill 1) take) ∧
    (Case.mk 1 refill {} ⟨[0, 4294967295, 4294967295, 0]⟩ .active 0 #[]).fire 1 (.all refill 1) =
      (.error (.conflict (.countOverflow 2)), ⟨1, refill, {}, ⟨[0, 4294967295, 4294967295, 0]⟩, .active, 0, #[]⟩) := by
  obtain ⟨-, hbalanced, -⟩ := fire_exact refill {} ⟨[0, 2, 4294967294, 0]⟩ 1 (.all refill 1)
  obtain ⟨hiff, -, hfailed⟩ := fire_exact refill {} ⟨[0, 4294967295, 4294967295, 0]⟩ 1 (.all refill 1)
  refine ⟨?_, fun h => ?_, hfailed _ rfl _ rfl rfl rfl rfl⟩
  · obtain ⟨take, hen, h⟩ := hbalanced _ _ rfl
    obtain rfl : [1] = take := by
      cases hen
      rfl
    exact h
  · obtain ⟨r, hr⟩ := hiff.2 h
    cases hr

end Net

end Workflow
