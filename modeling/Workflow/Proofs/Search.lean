import Workflow.ResetNet.Coverability
import Workflow.ResetNet.Run
/-!
# Search — what the backward search answers

The basis of a search stands for the counts above one of its members.  After `k` rounds these are exactly the
counts from which at most `k` firings lead above the goal (`Explored.round`), so a search that ends has answered the
question of coverability, whichever way it ends (`canCover_ok`).
-/
namespace Workflow

/-! ## Counts above a list of counts -/

/-- At least the counts of `a`, which are listed over the places of `l`. -/
def Counts.Above (x : Counts) (l a : List Nat) : Prop := below a (l.map x) = true

/-- Above one of the members of `as`. -/
def Counts.AboveSome (x : Counts) (l : List Nat) (as : List (List Nat)) : Prop := ∃ a ∈ as, x.Above l a

theorem below_refl : ∀ (a : List Nat), below a a = true
  | [] => rfl
  | n :: a => by rw [below, below_refl a, decide_eq_true (Nat.le_refl n), Bool.and_true]

theorem below_trans : ∀ {a b c : List Nat}, a.length = b.length → below a b = true → below b c = true →
    below a c = true
  | [], _, _, _, _, _ => by rw [below]; simp
  | _ :: _, [], _, h, _, _ => by simp at h
  | _ :: _, _ :: _, [], _, _, _ => by rw [below]; simp
  | n :: a, m :: b, k :: c, h, hab, hbc => by
    simp only [below, Bool.and_eq_true, decide_eq_true_eq] at hab hbc ⊢
    exact ⟨Nat.le_trans hab.1 hbc.1, below_trans (by simpa using h) hab.2 hbc.2⟩

theorem Counts.Above.of_below {x : Counts} {l a b : List Nat} (h : x.Above l b) (hab : below a b = true)
    (hlen : a.length = b.length) : x.Above l a :=
  below_trans hlen hab h

theorem aboveSome_cons {x : Counts} {l a : List Nat} {as : List (List Nat)} :
    x.AboveSome l (a :: as) ↔ x.Above l a ∨ x.AboveSome l as := by
  unfold Counts.AboveSome
  simp only [List.mem_cons, exists_eq_or_imp]

/-- Dropping what lies above `a` changes nothing once `a` is there. -/
theorem aboveSome_cons_filter {x : Counts} {l a : List Nat} {as : List (List Nat)}
    (hlen : ∀ b ∈ as, a.length = b.length) :
    x.AboveSome l (a :: as.filter (fun b => !below a b)) ↔ x.AboveSome l (a :: as) := by
  rw [aboveSome_cons, aboveSome_cons]
  constructor
  · rintro (h | ⟨b, hb, h⟩)
    · exact .inl h
    · exact .inr ⟨b, (List.mem_filter.1 hb).1, h⟩
  · rintro (h | ⟨b, hb, h⟩)
    · exact .inl h
    · by_cases hab : below a b = true
      · exact .inl (h.of_below hab (hlen b hb))
      · exact .inr ⟨b, List.mem_filter.2 ⟨hb, by simpa using hab⟩, h⟩

/-! ## Minimal markings -/

theorem mem_insertInOrder {a b : List Nat} : ∀ {l : List (List Nat)}, b ∈ insertInOrder a l ↔ b = a ∨ b ∈ l
  | [] => by simp [insertInOrder]
  | c :: l => by
    unfold insertInOrder
    split
    · rw [List.mem_cons]
    · rw [List.mem_cons, mem_insertInOrder, List.mem_cons]
      exact or_left_comm

theorem mem_of_mem_insertMinimal {l : List (List Nat)} {a b : List Nat} (h : b ∈ insertMinimal l a) :
    b = a ∨ b ∈ l := by
  unfold insertMinimal at h
  split at h
  · exact .inr h
  · rcases mem_insertInOrder.1 h with h | h
    · exact .inl h
    · exact .inr (List.mem_filter.1 h).1

theorem aboveSome_insertMinimal {x : Counts} {l a : List Nat} {as : List (List Nat)}
    (hlen : ∀ b ∈ as, b.length = a.length) :
    x.AboveSome l (insertMinimal as a) ↔ x.AboveSome l (a :: as) := by
  unfold insertMinimal
  split
  · rename_i hany
    obtain ⟨b, hb, hba⟩ := List.any_eq_true.1 hany
    rw [aboveSome_cons]
    exact ⟨.inr, fun h => h.elim (fun h => ⟨b, hb, h.of_below hba (hlen b hb)⟩) id⟩
  · rw [← aboveSome_cons_filter (fun b hb => (hlen b hb).symm)]
    unfold Counts.AboveSome
    simp only [mem_insertInOrder, List.mem_cons]

theorem foldl_insertMinimal_spec {n : Nat} : ∀ {l acc : List (List Nat)}, (∀ b ∈ l, b.length = n) →
    (∀ b ∈ acc, b.length = n) →
    (∀ b ∈ l.foldl insertMinimal acc, b ∈ acc ∨ b ∈ l) ∧
    ∀ (x : Counts) (places : List Nat), x.AboveSome places (l.foldl insertMinimal acc) ↔
      x.AboveSome places acc ∨ x.AboveSome places l
  | [], acc, _, _ => by simp [Counts.AboveSome]
  | a :: l, acc, hl, hacc => by
    have ha : a.length = n := hl a List.mem_cons_self
    have hacc' : ∀ b ∈ insertMinimal acc a, b.length = n := by
      intro b hb
      rcases mem_of_mem_insertMinimal hb with rfl | hb
      · exact ha
      · exact hacc b hb
    obtain ⟨hmem, habove⟩ := foldl_insertMinimal_spec (l := l) (fun b hb => hl b (List.mem_cons_of_mem _ hb)) hacc'
    rw [List.foldl_cons]
    refine ⟨fun b hb => ?_, fun x places => ?_⟩
    · rcases hmem b hb with hb | hb
      · rcases mem_of_mem_insertMinimal hb with rfl | hb
        · exact .inr List.mem_cons_self
        · exact .inl hb
      · exact .inr (List.mem_cons_of_mem _ hb)
    · rw [habove, aboveSome_insertMinimal (fun b hb => (hacc b hb).trans ha.symm), aboveSome_cons, aboveSome_cons,
        or_assoc]
      exact or_left_comm

theorem mem_of_mem_minimals {n : Nat} {l : List (List Nat)} (hl : ∀ b ∈ l, b.length = n) {b : List Nat}
    (hb : b ∈ minimals l) : b ∈ l :=
  ((foldl_insertMinimal_spec hl (by simp)).1 b hb).resolve_left List.not_mem_nil

/-- **The minimal ones stand for all.** -/
theorem aboveSome_minimals {n : Nat} {l : List (List Nat)} (hl : ∀ b ∈ l, b.length = n) {x : Counts}
    {places : List Nat} : x.AboveSome places (minimals l) ↔ x.AboveSome places l := by
  rw [minimals, (foldl_insertMinimal_spec hl (by simp)).2 x places]
  simp [Counts.AboveSome]

/-! ## One firing back -/

theorem after_effectOn (tr : ResetTransition) (x : Counts) (p : Nat) :
    (tr.effectOn p).after (x p) = tr.fire x p := by
  simp only [Effect.after, ResetTransition.effectOn, ResetTransition.fire, Counts.move, List.contains_iff_mem]
  by_cases hc : p ∈ tr.resets <;> by_cases ht : p ∈ tr.preset <;> by_cases hp : p ∈ tr.postset <;>
    simp [hc, ht, hp]

theorem length_predecessor? : ∀ {es : List Effect} {a b : List Nat}, es.length = a.length →
    predecessor? es a = some b → b.length = a.length
  | [], [], b, _, h => by cases h; rfl
  | [], _ :: _, _, hlen, _ => by simp at hlen
  | _ :: _, [], _, hlen, _ => by simp at hlen
  | e :: es, n :: a, b, hlen, h => by
    unfold predecessor? at h
    split at h
    · rename_i m c hm hc
      cases h
      rw [List.length_cons, List.length_cons, length_predecessor? (by simpa using hlen) hc]
    · cases h

theorem predecessor?_le {k : Nat} : ∀ {es : List Effect} {a b : List Nat}, predecessor? es a = some b →
    (∀ n ∈ a, n ≤ k) → ∀ n ∈ b, n ≤ k + 1
  | [], _, b, h, _ => by
    cases h
    simp
  | _ :: _, [], b, h, _ => by
    cases h
    simp
  | e :: es, n :: a, b, h, ha => by
    obtain ⟨hn, ha⟩ := List.forall_mem_cons.1 ha
    unfold predecessor? at h
    split at h
    · rename_i m c hm hc
      cases h
      refine List.forall_mem_cons.2 ⟨?_, predecessor?_le hc ha⟩
      have htakes : e.takes.toNat ≤ 1 := Bool.toNat_le e.takes
      unfold Effect.before? at hm
      split at hm
      · cases hm
      · cases hm
        omega
    · cases h

/-- **The predecessor is the weakest condition**: counts lie above it exactly when the transition finds its tokens
among the listed places and then leads above `a`. -/
theorem above_predecessor?_iff (tr : ResetTransition) (x : Counts) : ∀ {l a : List Nat}, a.length = l.length →
    ((∃ b, predecessor? (l.map tr.effectOn) a = some b ∧ x.Above l b) ↔
      (∀ p ∈ l, p ∈ tr.preset → 0 < x p) ∧ (tr.fire x).Above l a)
  | [], [], _ => by simp [predecessor?, Counts.Above, below]
  | [], _ :: _, h => by simp at h
  | _ :: _, [], h => by simp at h
  | p :: l, n :: a, h => by
    have ih := above_predecessor?_iff tr x (l := l) (a := a) (by simpa using h)
    have hp := (tr.effectOn p).le_after_iff n (x p)
    have htakes : (tr.effectOn p).takes.toNat ≤ x p ↔ (p ∈ tr.preset → 0 < x p) := by
      simp only [ResetTransition.effectOn]
      by_cases hmem : p ∈ tr.preset <;> simp [hmem, Nat.succ_le_iff]
    rw [after_effectOn, htakes] at hp
    simp only [Counts.Above, List.map_cons, predecessor?, below, Bool.and_eq_true, decide_eq_true_eq,
      List.mem_cons, forall_eq_or_imp] at ih ⊢
    constructor
    · rintro ⟨b, hb, hbelow⟩
      split at hb
      · rename_i m c hm hc
        cases hb
        simp only [below, Bool.and_eq_true, decide_eq_true_eq] at hbelow
        obtain ⟨h1, h2⟩ := hp.2 ⟨m, hm, hbelow.1⟩
        obtain ⟨h3, h4⟩ := ih.1 ⟨c, hc, hbelow.2⟩
        exact ⟨⟨h1, h3⟩, h2, h4⟩
      · cases hb
    · rintro ⟨⟨h1, h3⟩, h2, h4⟩
      obtain ⟨m, hm, hle⟩ := hp.1 ⟨h1, h2⟩
      obtain ⟨c, hc, hbelow⟩ := ih.2 ⟨h3, h4⟩
      refine ⟨m :: c, by rw [hm, hc], ?_⟩
      simp only [below, Bool.and_eq_true, decide_eq_true_eq]
      exact ⟨hle, hbelow⟩

/-! ## Firing by firing -/

namespace ResetNet

/-- At most `k` firings lead from `x` above the goal. -/
def LeadsAbove (r : ResetNet) (goal : List Nat) (k : Nat) (x : Counts) : Prop :=
  ∃ j ≤ k, ∃ y, r.Run j x y ∧ y.Above r.alive goal

/-- The transitions take tokens from places that have not been dropped. -/
def TakesAlive (r : ResetNet) : Prop := ∀ tr ∈ r.transitions, ∀ p ∈ tr.preset, p ∈ r.alive

/-- What an answer of a search of `k` rounds says about the firings from `x`: a search that has run out of rounds has
missed no run of that many firings, and one whose basis grew too large says nothing. -/
def Answers (r : ResetNet) (limits : AnalysisLimits) (goal : List Nat) (k : Nat) (x : Counts) :
    Except Failure Bool → Prop
  | .ok true => r.LeadsAbove goal k x
  | .ok false => ∀ j, ¬ r.LeadsAbove goal j x
  | .error failure => failure = .excess (.basis limits.basis) ∨
    failure = .excess (.rounds limits.rounds) ∧ ¬ r.LeadsAbove goal k x

variable {r : ResetNet} {goal : List Nat} {k : Nat} {x : Counts}

theorem leadsAbove_zero : r.LeadsAbove goal 0 x ↔ x.Above r.alive goal := by
  constructor
  · rintro ⟨j, hj, y, hrun, hy⟩
    obtain rfl : j = 0 := Nat.le_zero.1 hj
    cases hrun
    exact hy
  · exact fun h => ⟨0, Nat.le_refl 0, x, .nil x, h⟩

theorem LeadsAbove.mono {k' : Nat} (h : r.LeadsAbove goal k x) (hk : k ≤ k') : r.LeadsAbove goal k' x := by
  obtain ⟨j, hj, y, hrun, hy⟩ := h
  exact ⟨j, Nat.le_trans hj hk, y, hrun, hy⟩

theorem leadsAbove_succ : r.LeadsAbove goal (k + 1) x ↔
    r.LeadsAbove goal k x ∨ ∃ tr ∈ r.transitions, tr.Enabled x ∧ r.LeadsAbove goal k (tr.fire x) := by
  constructor
  · rintro ⟨j, hj, y, hrun, hy⟩
    cases hrun with
    | nil => exact .inl ⟨0, Nat.zero_le k, x, .nil x, hy⟩
    | cons htr hen hrest => exact .inr ⟨_, htr, hen, _, Nat.le_of_succ_le_succ hj, y, hrest, hy⟩
  · rintro (⟨j, hj, y, hrun, hy⟩ | ⟨tr, htr, hen, j, hj, y, hrun, hy⟩)
    · exact ⟨j, Nat.le_succ_of_le hj, y, hrun, hy⟩
    · exact ⟨j + 1, Nat.succ_le_succ hj, y, .cons htr hen hrun, hy⟩

end ResetNet

/-! ## Round by round -/

/-- What the search knows after `k` rounds: the basis stands for the counts that lead above the goal in at most `k`
firings, and only its fresh members have not been looked behind yet.  No count grows by more than one in a round. -/
structure Explored (r : ResetNet) (goal : List Nat) (k : Nat) (basis fresh : List (List Nat)) : Prop where
  basis_length : ∀ a ∈ basis, a.length = r.alive.length
  fresh_length : ∀ a ∈ fresh, a.length = r.alive.length
  basis_le : ∀ a ∈ basis, ∀ n ∈ a, n ≤ k + 1
  fresh_le : ∀ a ∈ fresh, ∀ n ∈ a, n ≤ k + 1
  above_iff : ∀ x : Counts, x.AboveSome r.alive basis ↔ r.LeadsAbove goal k x
  fresh_above : ∀ x : Counts, x.AboveSome r.alive fresh → x.AboveSome r.alive basis
  expanded : ∀ a ∈ basis, a ∉ fresh → ∀ tr ∈ r.transitions, ∀ x : Counts, tr.Enabled x →
    (tr.fire x).Above r.alive a → x.AboveSome r.alive basis

namespace Search

theorem takeUp_cons_grown {s : Search} {a : List Nat} {l basis fresh basis' fresh' : List (List Nat)}
    (h : s.takeUp (a :: l) basis fresh = .grown basis' fresh') :
    below a s.source = false ∧
      ((∃ b ∈ basis, below b a = true) ∧ s.takeUp l basis fresh = .grown basis' fresh' ∨
        (∀ b ∈ basis, below b a = false) ∧
          s.takeUp l (a :: basis.filter (fun b => !below a b)) (a :: fresh) = .grown basis' fresh') := by
  unfold takeUp at h
  split at h
  · cases h
  · rename_i hsource
    refine ⟨by simpa using hsource, ?_⟩
    split at h
    · rename_i hany
      exact .inl ⟨List.any_eq_true.1 hany, h⟩
    · rename_i hnone
      dsimp only at h
      split at h
      · cases h
      · exact .inr ⟨fun b hb => by simpa using mt (fun hba => List.any_eq_true.2 ⟨b, hb, hba⟩) hnone, h⟩

theorem takeUp_covered {s : Search} : ∀ {l basis fresh : List (List Nat)}, s.takeUp l basis fresh = .covered →
    ∃ a ∈ l, below a s.source = true
  | [], _, _, h => by cases h
  | a :: l, basis, fresh, h => by
    unfold takeUp at h
    split at h
    · rename_i hsource
      exact ⟨a, List.mem_cons_self, hsource⟩
    · have hrest : ∃ basis fresh, s.takeUp l basis fresh = .covered := by
        split at h
        · exact ⟨_, _, h⟩
        · dsimp only at h
          split at h
          · cases h
          · exact ⟨_, _, h⟩
      obtain ⟨_, _, hrest⟩ := hrest
      obtain ⟨b, hb, hsource⟩ := takeUp_covered hrest
      exact ⟨b, List.mem_cons_of_mem _ hb, hsource⟩

/-- **What a round that goes on has done** with the markings it took up: none lies below the source, and together
with the old basis they stand for the same counts as the new basis, which has nothing new but fresh members. -/
theorem takeUp_grown {s : Search} {n : Nat} : ∀ {l basis fresh basis' fresh' : List (List Nat)},
    s.takeUp l basis fresh = .grown basis' fresh' → (∀ a ∈ l, a.length = n) → (∀ a ∈ basis, a.length = n) →
    (∀ a ∈ l, below a s.source = false) ∧ (∀ a ∈ fresh, a ∈ fresh') ∧ (∀ a ∈ fresh', a ∈ fresh ∨ a ∈ l) ∧
    (∀ a ∈ basis', a ∈ basis ∨ a ∈ fresh') ∧
    ∀ (x : Counts) (places : List Nat), x.AboveSome places basis' ↔ x.AboveSome places basis ∨ x.AboveSome places l
  | [], basis, fresh, basis', fresh', h, _, _ => by
    cases h
    refine ⟨by simp, fun _ h => h, fun _ => .inl, fun _ => .inl, fun x places => ?_⟩
    simp [Counts.AboveSome]
  | a :: l, basis, fresh, basis', fresh', h, hl, hb => by
    have ha : a.length = n := hl a List.mem_cons_self
    have hl' : ∀ b ∈ l, b.length = n := fun b h => hl b (List.mem_cons_of_mem _ h)
    obtain ⟨hsource, ⟨⟨c, hc, hca⟩, h⟩ | ⟨-, h⟩⟩ := takeUp_cons_grown h
    · obtain ⟨h1, h2, h3, h4, h5⟩ := takeUp_grown h hl' hb
      refine ⟨List.forall_mem_cons.2 ⟨hsource, h1⟩, h2, fun b hb => (h3 b hb).imp_right (List.mem_cons_of_mem _), h4,
        fun x places => ?_⟩
      rw [h5, aboveSome_cons]
      -- `a` is no news: a member of the basis lies below it
      have hac : x.Above places a → x.AboveSome places basis := fun hx =>
        ⟨c, hc, hx.of_below hca ((hb c hc).trans ha.symm)⟩
      exact ⟨fun h => h.imp_right .inr, fun h => h.elim .inl (fun h => h.elim (fun h => .inl (hac h)) .inr)⟩
    · have hb' : ∀ b ∈ a :: basis.filter (fun b => !below a b), b.length = n :=
        List.forall_mem_cons.2 ⟨ha, fun b h => hb b (List.mem_filter.1 h).1⟩
      obtain ⟨h1, h2, h3, h4, h5⟩ := takeUp_grown h hl' hb'
      refine ⟨List.forall_mem_cons.2 ⟨hsource, h1⟩, fun b hb => h2 b (List.mem_cons_of_mem _ hb), fun b hb => ?_,
        fun b hb => ?_, fun x places => ?_⟩
      · rcases h3 b hb with hb | hb
        · rcases List.mem_cons.1 hb with rfl | hb
          · exact .inr List.mem_cons_self
          · exact .inl hb
        · exact .inr (List.mem_cons_of_mem _ hb)
      · rcases h4 b hb with hb | hb
        · rcases List.mem_cons.1 hb with rfl | hb
          · exact .inr (h2 b List.mem_cons_self)
          · exact .inl (List.mem_filter.1 hb).1
        · exact .inr hb
      · rw [h5, aboveSome_cons_filter (fun b h => ha.trans (hb b h).symm), aboveSome_cons, aboveSome_cons, or_assoc]
        exact or_left_comm

theorem mem_candidates {s : Search} {fresh : List (List Nat)} {b : List Nat} : b ∈ s.candidates fresh ↔
    ∃ a ∈ fresh, (∃ es ∈ s.effects, predecessor? es a = some b) ∧ below a b = false := by
  simp only [candidates, List.mem_flatMap, List.mem_filter, List.mem_filterMap, Bool.not_eq_true']

end Search

section

variable {r : ResetNet} {limits : AnalysisLimits} {source : Counts} {goal : List Nat} {k : Nat}
  {basis fresh basis' fresh' : List (List Nat)}

theorem length_of_mem_candidates (h : Explored r goal k basis fresh) :
    ∀ b ∈ (r.search limits source).candidates fresh, b.length = r.alive.length := by
  intro b hb
  obtain ⟨a, ha, ⟨es, hes, hpre⟩, -⟩ := Search.mem_candidates.1 hb
  obtain ⟨tr, -, rfl⟩ := List.mem_map.1 hes
  have hlen := h.fresh_length a ha
  rw [length_predecessor? (by rw [List.length_map, hlen]) hpre, hlen]

/-- **Counts stay small**: what comes up in round `k + 1` has none above `k + 2`.  A search of at most `2 ^ 32 - 2`
rounds never needs more than 32-bit words. -/
theorem le_of_mem_candidates (h : Explored r goal k basis fresh) :
    ∀ b ∈ (r.search limits source).candidates fresh, ∀ n ∈ b, n ≤ k + 2 := by
  intro b hb
  obtain ⟨a, ha, ⟨es, -, hpre⟩, -⟩ := Search.mem_candidates.1 hb
  exact predecessor?_le hpre (h.fresh_le a ha)

/-- **Looking behind the fresh members finds all that one firing more leads to.** -/
theorem aboveSome_candidates (hr : r.TakesAlive) (h : Explored r goal k basis fresh) (x : Counts) :
    x.AboveSome r.alive basis ∨ x.AboveSome r.alive ((r.search limits source).candidates fresh) ↔
      r.LeadsAbove goal (k + 1) x := by
  rw [ResetNet.leadsAbove_succ, ← h.above_iff]
  constructor
  · rintro (hx | ⟨b, hb, hx⟩)
    · exact .inl hx
    · obtain ⟨a, ha, ⟨es, hes, hpre⟩, -⟩ := Search.mem_candidates.1 hb
      obtain ⟨tr, htr, rfl⟩ := List.mem_map.1 hes
      obtain ⟨hen, hfire⟩ := (above_predecessor?_iff tr x (h.fresh_length a ha)).1 ⟨b, hpre, hx⟩
      exact .inr ⟨tr, htr, fun p hp => hen p (hr tr htr p hp) hp,
        (h.above_iff _).1 (h.fresh_above _ ⟨a, ha, hfire⟩)⟩
  · rintro (hx | ⟨tr, htr, hen, hlead⟩)
    · exact .inl hx
    · obtain ⟨a, ha, hfire⟩ := (h.above_iff _).2 hlead
      by_cases hmem : a ∈ fresh
      · obtain ⟨b, hpre, hx⟩ :=
          (above_predecessor?_iff tr x (h.fresh_length a hmem)).2 ⟨fun p _ hp => hen p hp, hfire⟩
        by_cases hab : below a b = true
        -- a predecessor above its origin is dropped, and rightly so
        · refine .inl (h.fresh_above x ⟨a, hmem, hx.of_below hab ?_⟩)
          rw [length_predecessor? (by rw [List.length_map, h.fresh_length a hmem]) hpre]
        · exact .inr ⟨b, Search.mem_candidates.2
            ⟨a, hmem, ⟨_, List.mem_map.2 ⟨tr, htr, rfl⟩, hpre⟩, by simpa using hab⟩, hx⟩
      · exact .inl (h.expanded a ha hmem tr htr x hen hfire)

/-- **One round more.** -/
theorem Explored.round (hr : r.TakesAlive) (h : Explored r goal k basis fresh)
    (htake : (r.search limits source).takeUp (minimals ((r.search limits source).candidates fresh)) basis [] =
      .grown basis' fresh') :
    Explored r goal (k + 1) basis' fresh' ∧ (¬ source.AboveSome r.alive basis → ¬ source.AboveSome r.alive basis') := by
  have hcand : ∀ b ∈ (r.search limits source).candidates fresh, b.length = r.alive.length :=
    length_of_mem_candidates h
  have hmin : ∀ b ∈ minimals ((r.search limits source).candidates fresh), b.length = r.alive.length :=
    fun b hb => hcand b (mem_of_mem_minimals hcand hb)
  obtain ⟨hsource, -, hfresh, hbasis, habove⟩ := Search.takeUp_grown htake hmin h.basis_length
  have hfresh' : ∀ a ∈ fresh', a ∈ minimals ((r.search limits source).candidates fresh) :=
    fun a ha => (hfresh a ha).resolve_left List.not_mem_nil
  have hiff : ∀ x : Counts, x.AboveSome r.alive basis' ↔ r.LeadsAbove goal (k + 1) x := fun x => by
    rw [habove, aboveSome_minimals hcand, aboveSome_candidates hr h]
  have hle : ∀ a ∈ fresh', ∀ n ∈ a, n ≤ k + 2 :=
    fun a ha => le_of_mem_candidates h a (mem_of_mem_minimals hcand (hfresh' a ha))
  refine ⟨⟨fun a ha => ?_, fun a ha => hmin a (hfresh' a ha), fun a ha => ?_, hle, hiff, fun x hx => ?_,
    fun a ha hmem tr htr x hen hfire => ?_⟩, fun hnot => ?_⟩
  · exact (hbasis a ha).elim (h.basis_length a) (fun ha => hmin a (hfresh' a ha))
  · exact (hbasis a ha).elim (fun ha n hn => Nat.le_succ_of_le (h.basis_le a ha n hn)) (hle a)
  · obtain ⟨a, ha, hx⟩ := hx
    exact (habove x r.alive).2 (.inr ⟨a, hfresh' a ha, hx⟩)
  -- a member that is not fresh is an old one, and the old ones have all been looked behind by now
  · have hold : a ∈ basis := (hbasis a ha).resolve_right hmem
    rw [hiff, ResetNet.leadsAbove_succ]
    exact .inr ⟨tr, htr, hen, (h.above_iff _).1 ⟨a, hold, hfire⟩⟩
  · rw [habove]
    rintro (h' | ⟨a, ha, h'⟩)
    · exact hnot h'
    · exact absurd h' (Bool.eq_false_iff.1 (hsource a ha))

/-- Once nothing is fresh, further firings lead to nothing more. -/
theorem Explored.leadsAbove_of_settled (h : Explored r goal k basis []) : ∀ {j : Nat} {x : Counts},
    r.LeadsAbove goal j x → x.AboveSome r.alive basis
  | 0, x, hx => (h.above_iff x).2 (by
      obtain ⟨i, hi, y, hrun, hy⟩ := hx
      exact ⟨i, Nat.le_trans hi (Nat.zero_le k), y, hrun, hy⟩)
  | j + 1, x, hx => by
    rcases ResetNet.leadsAbove_succ.1 hx with hx | ⟨tr, htr, hen, hx⟩
    · exact h.leadsAbove_of_settled hx
    · obtain ⟨a, ha, hfire⟩ := h.leadsAbove_of_settled hx
      exact h.expanded a ha List.not_mem_nil tr htr x hen hfire

/-- **Round for round, firing for firing**: the search goes on from what it knows after `k` rounds. -/
theorem explore_answers (hr : r.TakesAlive) : ∀ {n k : Nat} {basis fresh : List (List Nat)},
    Explored r goal k basis fresh → ¬ source.AboveSome r.alive basis →
    r.Answers limits goal (k + n) source ((r.search limits source).explore n basis fresh)
  | n, _, basis, [], h, hnot => by
    have hend : (r.search limits source).explore n basis [] = .ok false := by cases n <;> rfl
    rw [hend]
    exact fun j hj => hnot (h.leadsAbove_of_settled hj)
  | 0, _, _, _ :: _, h, hnot => .inr ⟨rfl, fun hlead => hnot ((h.above_iff source).2 hlead)⟩
  | n + 1, k, _, _ :: _, h, hnot => by
    unfold Search.explore
    split
    · rename_i htake
      obtain ⟨c, hc, hsource⟩ := Search.takeUp_covered htake
      have hc := mem_of_mem_minimals (length_of_mem_candidates h) hc
      exact ((aboveSome_candidates hr h source).1 (.inr ⟨c, hc, hsource⟩)).mono (by omega)
    · exact .inl rfl
    · rename_i htake
      obtain ⟨h', hnot'⟩ := h.round hr htake
      rw [Nat.add_comm n 1, ← Nat.add_assoc]
      exact explore_answers hr h' (hnot' hnot)

end

/-! ## The answer -/

/-- The least counts over the places of `l` with a token on each target among them. -/
theorem above_goal_iff {x : Counts} {targets : List Nat} : ∀ {l : List Nat},
    x.Above l (l.map (fun p => if targets.contains p then 1 else 0)) ↔ ∀ p ∈ l, p ∈ targets → 0 < x p
  | [] => by simp [Counts.Above, below]
  | p :: l => by
    have ih : x.Above l (l.map (fun p => if targets.contains p then 1 else 0)) ↔ ∀ p ∈ l, p ∈ targets → 0 < x p :=
      above_goal_iff
    unfold Counts.Above at ih ⊢
    rw [List.map_cons, List.map_cons, below, Bool.and_eq_true, ih, decide_eq_true_eq, List.forall_mem_cons]
    refine and_congr_left' ?_
    by_cases hp : p ∈ targets <;> simp [hp, Nat.succ_le_iff]

/-- The least counts with a token on each target, over the places of the net. -/
def ResetNet.goalOf (r : ResetNet) (targets : List Nat) : List Nat :=
  r.alive.map (fun p => if targets.contains p then 1 else 0)

section

variable {r : ResetNet} {limits : AnalysisLimits} {source : Counts} {targets : List Nat}

theorem above_goalOf_iff {x : Counts} (halive : ∀ p ∈ targets, p ∈ r.alive) :
    x.Above r.alive (r.goalOf targets) ↔ x.Marks targets := by
  unfold ResetNet.goalOf
  rw [above_goal_iff]
  exact ⟨fun hx p hp => hx p (halive p hp) hp, fun hx p _ hp => hx p hp⟩

theorem leadsAbove_goalOf_iff {k : Nat} {x : Counts} (halive : ∀ p ∈ targets, p ∈ r.alive) :
    r.LeadsAbove (r.goalOf targets) k x ↔ r.CoverableIn k x targets := by
  unfold ResetNet.LeadsAbove ResetNet.CoverableIn
  simp only [above_goalOf_iff halive]

theorem canCover_of_dropped (h : ¬ ∀ p ∈ targets, p ∈ r.alive) :
    (r.search limits source).canCover targets = .ok false := by
  unfold Search.canCover
  rw [if_neg]
  simpa [ResetNet.search] using h

/-- Before the first round only the goal is known. -/
theorem explored_goalOf (r : ResetNet) (targets : List Nat) :
    Explored r (r.goalOf targets) 0 [r.goalOf targets] [r.goalOf targets] := by
  have hlen : ∀ a ∈ [r.goalOf targets], a.length = r.alive.length := fun a ha =>
    List.mem_singleton.1 ha ▸ List.length_map _
  have hle : ∀ a ∈ [r.goalOf targets], ∀ n ∈ a, n ≤ 1 := fun a ha n hn => by
    rw [List.mem_singleton.1 ha] at hn
    obtain ⟨p, -, rfl⟩ := List.mem_map.1 hn
    split
    · exact Nat.le_refl 1
    · exact Nat.zero_le 1
  refine ⟨hlen, hlen, hle, hle, fun x => ?_, fun _ h => h, fun a ha hmem => absurd ha hmem⟩
  rw [ResetNet.leadsAbove_zero]
  simp [Counts.AboveSome]

/-- **What the search answers**, when no target has been dropped. -/
theorem canCover_answers (limits : AnalysisLimits) (source : Counts) (hr : r.TakesAlive)
    (halive : ∀ p ∈ targets, p ∈ r.alive) :
    r.Answers limits (r.goalOf targets) limits.rounds source ((r.search limits source).canCover targets) := by
  unfold Search.canCover
  rw [if_pos (by simpa [ResetNet.search] using halive)]
  dsimp only
  split
  · rename_i hbelow
    exact (ResetNet.leadsAbove_zero.2 hbelow).mono (Nat.zero_le _)
  · rename_i hbelow
    rw [← Nat.zero_add limits.rounds]
    refine explore_answers hr (explored_goalOf r targets) ?_
    rintro ⟨a, ha, hx⟩
    obtain rfl := List.mem_singleton.1 ha
    exact hbelow hx

/-- **The search answers the question of coverability**: a target that has been dropped cannot be covered, and
otherwise the answer is whether a run, of any length, brings a token to each target at the same time. -/
theorem canCover_ok {b : Bool} (hr : r.TakesAlive) (h : (r.search limits source).canCover targets = .ok b) :
    b = true ↔ (∀ p ∈ targets, p ∈ r.alive) ∧ r.Coverable source targets := by
  by_cases halive : ∀ p ∈ targets, p ∈ r.alive
  · have hanswer := canCover_answers limits source hr halive
    rw [h] at hanswer
    rw [and_iff_right halive, ResetNet.coverable_iff_coverableIn]
    simp only [← leadsAbove_goalOf_iff halive]
    cases b with
    | true => exact ⟨fun _ => ⟨_, hanswer⟩, fun _ => rfl⟩
    | false => exact ⟨fun hb => (nomatch hb), fun ⟨j, hj⟩ => absurd hj (hanswer j)⟩
  · rw [canCover_of_dropped halive] at h
    cases h
    exact ⟨fun hb => (nomatch hb), fun hcov => absurd hcov.1 halive⟩

end

end Workflow
