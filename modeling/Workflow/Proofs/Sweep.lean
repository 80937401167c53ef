import Mathlib.Data.List.Nodup
import Workflow.Proofs.Eager
import Workflow.Proofs.Relevance
import Workflow.ResetNet.Sweep
/-!
# Sweep — a sweep finds the restriction

A place has one turn and is told to a transition once for each arc, so a transition without repeated arcs is told each
of its places at most once.  Its counter is therefore the number of input places it has not been told: there is always
one left to take off (`exists_tellAhead`), and it is at zero when all of them have been told.  So no sweep fails, and
what it leaves is what the closure leaves (`sweepBack_eq`, `sweepAhead_eq`).
-/
namespace Workflow

/-- A fold that may fail, followed by what holds after each part of the list. -/
theorem exists_foldlM {α σ : Type} {f : σ → α → Option σ} {I : List α → σ → Prop} {l : List α}
    (hstep : ∀ pre a post s, pre ++ a :: post = l → I pre s → ∃ s', f s a = some s' ∧ I (pre ++ [a]) s') :
    ∀ (rest : List α) {pre : List α} {s : σ}, pre ++ rest = l → I pre s → ∃ s', rest.foldlM f s = some s' ∧ I l s'
  | [], pre, s, hl, h => ⟨s, rfl, by rwa [← hl, List.append_nil]⟩
  | a :: rest, pre, s, hl, h => by
    obtain ⟨s₁, hs₁, h₁⟩ := hstep pre a rest s hl h
    have hl' : pre ++ [a] ++ rest = l := by rwa [List.append_assoc]
    obtain ⟨s', hs', h'⟩ := exists_foldlM hstep rest hl' h₁
    refine ⟨s', ?_, h'⟩
    rw [List.foldlM_cons, hs₁]
    exact hs'

namespace Sweep

variable {s : Sweep} {done places : List Nat} {p q i : Nat}

/-! ## The queue -/

/-- Every place reached has had its turn or waits for it, and none of them twice. -/
structure InLine (done : List Nat) (s : Sweep) : Prop where
  reached_eq : s.reached = done ++ s.queue
  nodup : s.reached.Nodup

theorem kept_reach : (s.reach p).kept = s.kept := by
  unfold reach
  split <;> rfl

theorem missing_reach : (s.reach p).missing = s.missing := by
  unfold reach
  split <;> rfl

theorem mem_reached_reach : q ∈ (s.reach p).reached ↔ q ∈ s.reached ∨ q = p := by
  unfold reach
  split
  · rename_i hp
    refine ⟨.inl, ?_⟩
    rintro (hq | rfl)
    · exact hq
    · exact List.contains_iff_mem.1 hp
  · rw [List.mem_append, List.mem_singleton]

theorem InLine.reach (h : s.InLine done) (p : Nat) : (s.reach p).InLine done := by
  unfold Sweep.reach
  split
  · exact h
  · rename_i hp
    refine ⟨?_, ?_⟩
    · show s.reached ++ [p] = done ++ (s.queue ++ [p])
      rw [h.reached_eq, List.append_assoc]
    · exact h.nodup.append (List.nodup_singleton p) (by simpa using hp)

theorem kept_foldl_reach : ∀ (places : List Nat) (s : Sweep), (places.foldl reach s).kept = s.kept
  | [], _ => rfl
  | _ :: places, _ => (kept_foldl_reach places _).trans kept_reach

theorem missing_foldl_reach : ∀ (places : List Nat) (s : Sweep), (places.foldl reach s).missing = s.missing
  | [], _ => rfl
  | _ :: places, _ => (missing_foldl_reach places _).trans missing_reach

theorem mem_reached_foldl_reach : ∀ {places : List Nat} {s : Sweep},
    q ∈ (places.foldl reach s).reached ↔ q ∈ s.reached ∨ q ∈ places
  | [], s => by simp
  | p :: places, s => by
    rw [List.foldl_cons, mem_reached_foldl_reach, mem_reached_reach, List.mem_cons, or_assoc]

theorem InLine.foldl_reach : ∀ (places : List Nat) {s : Sweep}, s.InLine done → (places.foldl Sweep.reach s).InLine done
  | [], _, h => h
  | p :: places, _, h => InLine.foldl_reach places (h.reach p)

/-! ## Turn after turn -/

/-- **A sweep comes to an end**: there are no more turns than places. -/
theorem exists_run {tell : Sweep → ResetTransition × Nat → Option Sweep} {arcsAt : Nat → List (ResetTransition × Nat)}
    {I : List Nat → Sweep → Prop} {size : Nat} (hline : ∀ {done s}, I done s → s.InLine done)
    (hlt : ∀ {done s}, I done s → ∀ p ∈ s.reached, p < size)
    (hturn : ∀ {done s p queue}, I done s → s.queue = p :: queue →
      ∃ s', (arcsAt p).foldlM tell { s with queue } = some s' ∧ I (done ++ [p]) s') :
    ∀ {n : Nat} {done : List Nat} {s : Sweep}, I done s → size ≤ n + done.length →
      ∃ s', run tell arcsAt n s = some s' ∧ I s'.reached s'
  | n, done, s, h, hn => by
    have hreached := (hline h).reached_eq
    cases hqueue : s.queue with
    | nil =>
      refine ⟨s, by unfold run; rw [hqueue], ?_⟩
      rwa [hreached, hqueue, List.append_nil]
    | cons p queue =>
      match n with
      | 0 =>
        have hle := length_le_of_nodup_subset (hline h).nodup fun q hq => List.mem_range.2 (hlt h q hq)
        rw [hreached, hqueue, List.length_append, List.length_cons, List.length_range] at hle
        omega
      | n + 1 =>
        obtain ⟨s₁, hs₁, h₁⟩ := hturn h hqueue
        obtain ⟨s', hs', h'⟩ := exists_run hline hlt hturn (n := n) h₁ (by
          rw [List.length_append, List.length_singleton]
          omega)
        refine ⟨s', ?_, h'⟩
        unfold run
        rw [hqueue]
        dsimp only
        rw [hs₁, Option.bind_some, hs']

/-! ## Who has been told of what -/

/-- Transition number `i` has been told the place `p` as well. -/
def tellOf (told : Nat → Nat → Bool) (i p : Nat) : Nat → Nat → Bool := fun j q => told j q || (j == i && q == p)

theorem tellOf_iff {told : Nat → Nat → Bool} {j : Nat} :
    tellOf told i p j q = true ↔ told j q = true ∨ (j = i ∧ q = p) := by
  simp [tellOf]

theorem tellOf_of_ne {told : Nat → Nat → Bool} {j : Nat} (h : j ≠ i) : tellOf told i p j = told j := by
  funext q
  simp [tellOf, h]

theorem tellOf_self {told : Nat → Nat → Bool} (h : q ≠ p) : tellOf told i p i q = told i q := by
  simp [tellOf, h]

/-- These transitions have been told the place `p` as well. -/
def tellAll (told : Nat → Nat → Bool) (p : Nat) (l : List (ResetTransition × Nat)) : Nat → Nat → Bool :=
  l.foldl (fun told e => tellOf told e.2 p) told

theorem tellAll_concat {told : Nat → Nat → Bool} {l : List (ResetTransition × Nat)} (e : ResetTransition × Nat) :
    tellAll told p (l ++ [e]) = tellOf (tellAll told p l) e.2 p := List.foldl_concat ..

theorem tellAll_iff {j : Nat} : ∀ {l : List (ResetTransition × Nat)} {told : Nat → Nat → Bool},
    tellAll told p l j q = true ↔ told j q = true ∨ (q = p ∧ ∃ e ∈ l, e.2 = j)
  | [], told => by simp [tellAll]
  | e :: l, told => by
    have ih : tellAll told p (e :: l) j q = true ↔ _ := tellAll_iff (l := l)
    rw [ih, tellOf_iff, or_assoc]
    simp only [List.mem_cons, exists_eq_or_imp, eq_comm (a := j), and_or_left, and_comm (b := q = p)]

/-- A way through the net: the arcs along which a transition is told, the places it leads on to, and when it is
ready. -/
structure Heading where
  arcs : ResetTransition → List Nat
  onward : ResetTransition → List Nat
  ready : ResetTransition → (Nat → Bool) → Bool
  ready_mono : ∀ {tr f g}, (∀ p ∈ arcs tr, f p = true → g p = true) → ready tr f = true → ready tr g = true

namespace Heading

def back : Heading where
  arcs := ResetTransition.postset
  onward := ResetTransition.preset
  ready := fun tr f => tr.postset.any f
  ready_mono := fun h hany => by
    obtain ⟨p, hp, hf⟩ := List.any_eq_true.1 hany
    exact List.any_eq_true.2 ⟨p, hp, h p hp hf⟩

def ahead : Heading where
  arcs := ResetTransition.preset
  onward := ResetTransition.postset
  ready := fun tr f => tr.preset.all f
  ready_mono := fun h hall => List.all_eq_true.2 fun p hp => h p hp (List.all_eq_true.1 hall p hp)

theorem ready_congr (d : Heading) {tr : ResetTransition} {f g : Nat → Bool} (h : ∀ p ∈ d.arcs tr, f p = g p) :
    d.ready tr f = d.ready tr g :=
  Bool.eq_iff_iff.2 ⟨d.ready_mono fun p hp hf => h p hp ▸ hf, d.ready_mono fun p hp hg => (h p hp).symm ▸ hg⟩

end Heading

/-- **What holds all along a sweep** that starts from `starts` and stays within `limit`: the transitions kept are those
that are ready with what they have been told, and where they lead has been reached. -/
structure Tracks (r : ResetNet) (d : Heading) (starts limit : List Nat) (told : Nat → Nat → Bool) (done : List Nat)
    (s : Sweep) : Prop where
  inLine : s.InLine done
  reached_limit : ∀ p ∈ s.reached, p ∈ limit
  starts_reached : ∀ p ∈ starts, p ∈ r.alive → p ∈ s.reached
  told_reached : ∀ i p, told i p = true → p ∈ s.reached
  kept_iff : ∀ e ∈ r.transitions.zipIdx, e.2 ∈ s.kept ↔ d.ready e.1 (told e.2) = true
  onward_reached : ∀ e ∈ r.transitions.zipIdx, e.2 ∈ s.kept → ∀ q ∈ d.onward e.1, q ∈ s.reached

section

variable {r : ResetNet} {d : Heading} {starts limit : List Nat} {told told' : Nat → Nat → Bool}
  {e : ResetTransition × Nat}

/-- The number of a transition belongs to no other. -/
theorem eq_of_mem_zipIdx {e' : ResetTransition × Nat} (he : e ∈ r.transitions.zipIdx)
    (he' : e' ∈ r.transitions.zipIdx) (h : e'.2 = e.2) : e' = e := by
  rw [List.mem_zipIdx_iff_getElem?] at he he'
  rw [h, he] at he'
  exact Prod.ext (Option.some.inj he').symm h

/-- What holds along the sweep speaks only of what has been reached and kept. -/
theorem Tracks.of_same {s' : Sweep} {done' : List Nat} (h : Tracks r d starts limit told done s)
    (hline : s'.InLine done') (hreached : s'.reached = s.reached) (hkept : s'.kept = s.kept) :
    Tracks r d starts limit told done' s' := by
  refine ⟨hline, ?_, ?_, ?_, ?_, ?_⟩
  · rw [hreached]
    exact h.reached_limit
  · rw [hreached]
    exact h.starts_reached
  · rw [hreached]
    exact h.told_reached
  · rw [hkept]
    exact h.kept_iff
  · rw [hreached, hkept]
    exact h.onward_reached

/-- A transition is told a place, which does not make it ready, or it has been ready before. -/
theorem Tracks.pass (h : Tracks r d starts limit told done s) (he : e ∈ r.transitions.zipIdx) (hp : p ∈ s.reached)
    (hready : d.ready e.1 (tellOf told e.2 p e.2) = true → d.ready e.1 (told e.2) = true) :
    Tracks r d starts limit (tellOf told e.2 p) done s where
  inLine := h.inLine
  reached_limit := h.reached_limit
  starts_reached := h.starts_reached
  told_reached := fun i q htold => (tellOf_iff.1 htold).elim (h.told_reached i q) fun heq => heq.2 ▸ hp
  kept_iff := fun e' he' => by
    rw [h.kept_iff e' he']
    by_cases hi : e'.2 = e.2
    · obtain rfl := eq_of_mem_zipIdx he he' hi
      exact ⟨d.ready_mono fun q _ hq => tellOf_iff.2 (.inl hq), hready⟩
    · rw [tellOf_of_ne hi]
  onward_reached := h.onward_reached

/-- A transition is ready with a place it is told. -/
theorem Tracks.accept (h : Tracks r d starts limit told done s) (he : e ∈ r.transitions.zipIdx) (hp : p ∈ s.reached)
    (hlimit : ∀ tr ∈ r.transitions, d.ready tr limit.contains = true → ∀ q ∈ d.onward tr, q ∈ limit)
    (hready : d.ready e.1 (tellOf told e.2 p e.2) = true) :
    Tracks r d starts limit (tellOf told e.2 p) done (s.accept e.2 (d.onward e.1)) := by
  have hreached (q : Nat) : q ∈ (s.accept e.2 (d.onward e.1)).reached ↔ q ∈ s.reached ∨ q ∈ d.onward e.1 :=
    mem_reached_foldl_reach
  have hkept : (s.accept e.2 (d.onward e.1)).kept = e.2 :: s.kept := kept_foldl_reach _ _
  have htold (i q : Nat) (htold : tellOf told e.2 p i q = true) : q ∈ s.reached :=
    (tellOf_iff.1 htold).elim (h.told_reached i q) fun heq => heq.2 ▸ hp
  refine ⟨InLine.foldl_reach _ ⟨h.inLine.reached_eq, h.inLine.nodup⟩, fun q hq => ?_,
    fun q hq halive => (hreached q).2 (.inl (h.starts_reached q hq halive)),
    fun i q hq => (hreached q).2 (.inl (htold i q hq)), fun e' he' => ?_, fun e' he' hmem q hq => (hreached q).2 ?_⟩
  · rcases (hreached q).1 hq with hq | hq
    · exact h.reached_limit q hq
    · refine hlimit e.1 (List.fst_mem_of_mem_zipIdx he) (d.ready_mono (fun q _ hq => ?_) hready) q hq
      exact List.contains_iff_mem.2 (h.reached_limit q (htold _ q hq))
  · rw [hkept, List.mem_cons, h.kept_iff e' he']
    by_cases hi : e'.2 = e.2
    · obtain rfl := eq_of_mem_zipIdx he he' hi
      exact ⟨fun _ => hready, fun _ => .inl rfl⟩
    · rw [tellOf_of_ne hi, or_iff_right hi]
  · rw [hkept, List.mem_cons] at hmem
    rcases hmem with hi | hmem
    · obtain rfl := eq_of_mem_zipIdx he he' hi
      exact .inr hq
    · exact .inl (h.onward_reached e' he' hmem q hq)

/-- Only what has been told along arcs counts. -/
theorem Tracks.congr (h : Tracks r d starts limit told done s)
    (heq : ∀ e ∈ r.transitions.zipIdx, ∀ q ∈ d.arcs e.1, told e.2 q = told' e.2 q)
    (htold : ∀ i p, told' i p = true → p ∈ s.reached) : Tracks r d starts limit told' done s where
  inLine := h.inLine
  reached_limit := h.reached_limit
  starts_reached := h.starts_reached
  told_reached := htold
  kept_iff := fun e he => (h.kept_iff e he).trans (by rw [d.ready_congr (heq e he)])
  onward_reached := h.onward_reached

/-! ## A turn -/

theorem mem_arcsAt {arcs : ResetTransition → List Nat} :
    e ∈ r.arcsAt arcs p ↔ e ∈ r.transitions.zipIdx ∧ p ∈ arcs e.1 := by
  unfold ResetNet.arcsAt
  rw [List.mem_flatMap]
  constructor
  · rintro ⟨e', he', hmem⟩
    obtain ⟨hcount, rfl⟩ := List.mem_replicate.1 hmem
    exact ⟨he', List.count_pos_iff.1 (Nat.pos_of_ne_zero hcount)⟩
  · rintro ⟨he, hp⟩
    exact ⟨e, he, List.mem_replicate.2 ⟨Nat.pos_iff_ne_zero.1 (List.count_pos_iff.2 hp), rfl⟩⟩

/-- Without repeated arcs, each transition is told at most once. -/
theorem pairwise_arcsAt {arcs : ResetTransition → List Nat} (h : ∀ tr ∈ r.transitions, (arcs tr).Nodup) (p : Nat) :
    (r.arcsAt arcs p).Pairwise (fun e e' => e.2 ≠ e'.2) := by
  refine List.pairwise_flatMap.2 ⟨fun e he => ?_, ?_⟩
  · rw [(h e.1 (List.fst_mem_of_mem_zipIdx he)).count]
    split
    · exact List.pairwise_singleton _ e
    · exact .nil
  · have hnumbers : (r.transitions.zipIdx.map Prod.snd).Nodup := by
      rw [List.zipIdx_map_snd]
      exact List.nodup_range'
    refine (List.pairwise_map.1 hnumbers).imp fun hne e he e' he' => ?_
    rwa [(List.mem_replicate.1 he).2, (List.mem_replicate.1 he').2]

/-- What is asked of the way in which a place is told to a transition: it keeps what holds along the sweep, together
with what is known of the counters (`J`), if the transition has not been told that place before. -/
structure Tells (r : ResetNet) (d : Heading) (starts limit : List Nat)
    (tell : Sweep → ResetTransition × Nat → Option Sweep) (J : (Nat → Nat → Bool) → List Nat → Prop) : Prop where
  exists_tell : ∀ {told done s e p}, Tracks r d starts limit told done s → J told s.missing →
    e ∈ r.transitions.zipIdx → p ∈ d.arcs e.1 → p ∈ s.reached → told e.2 p = false →
    ∃ s', tell s e = some s' ∧ Tracks r d starts limit (tellOf told e.2 p) done s' ∧ J (tellOf told e.2 p) s'.missing
  counted_congr : ∀ {told told' missing}, J told missing →
    (∀ e ∈ r.transitions.zipIdx, ∀ q ∈ d.arcs e.1, told e.2 q = told' e.2 q) → J told' missing
  nodup_arcs : ∀ tr ∈ r.transitions, (d.arcs tr).Nodup

variable {tell : Sweep → ResetTransition × Nat → Option Sweep} {J : (Nat → Nat → Bool) → List Nat → Prop}

/-- The place is told to its transitions one after the other. -/
theorem Tells.tell_all (ht : Tells r d starts limit tell J) (h : Tracks r d starts limit told done s)
    (hJ : J told s.missing) (hp : p ∈ s.reached) (hfresh : ∀ i, told i p = false) :
    ∃ s', (r.arcsAt d.arcs p).foldlM tell s = some s' ∧
      Tracks r d starts limit (tellAll told p (r.arcsAt d.arcs p)) done s' ∧
      J (tellAll told p (r.arcsAt d.arcs p)) s'.missing := by
  -- After a part of the transitions, these have been told the place, and no others.
  have hstep : ∀ pre e post s, pre ++ e :: post = r.arcsAt d.arcs p →
      (Tracks r d starts limit (tellAll told p pre) done s ∧
        J (tellAll told p pre) s.missing ∧ p ∈ s.reached) →
      ∃ s', tell s e = some s' ∧
        Tracks r d starts limit (tellAll told p (pre ++ [e])) done s' ∧
        J (tellAll told p (pre ++ [e])) s'.missing ∧ p ∈ s'.reached := by
    rintro pre e post s hl ⟨htracks, hJ, hp⟩
    obtain ⟨he, harc⟩ := mem_arcsAt.1 (hl ▸ List.mem_append_right _ List.mem_cons_self)
    have huntold : tellAll told p pre e.2 p = false := by
      rw [Bool.eq_false_iff, Ne, tellAll_iff, hfresh]
      rintro (hbefore | ⟨-, e', he', heq⟩)
      · cases hbefore
      · have hpair := pairwise_arcsAt ht.nodup_arcs p
        rw [← hl] at hpair
        exact (List.pairwise_append.1 hpair).2.2 e' he' e List.mem_cons_self heq
    obtain ⟨s', hs', htracks', hJ'⟩ := ht.exists_tell htracks hJ he harc hp huntold
    rw [tellAll_concat]
    exact ⟨s', hs', htracks', hJ', htracks'.told_reached _ _ (tellOf_iff.2 (.inr ⟨rfl, rfl⟩))⟩
  obtain ⟨s', hs', htracks, hJ', -⟩ := exists_foldlM hstep _ (List.nil_append _) ⟨h, hJ, hp⟩
  exact ⟨s', hs', htracks, hJ'⟩

/-- **A turn.** -/
theorem Tells.turn (ht : Tells r d starts limit tell J) {queue : List Nat}
    (h : Tracks r d starts limit (fun _ q => done.contains q) done s) (hJ : J (fun _ q => done.contains q) s.missing)
    (hqueue : s.queue = p :: queue) :
    ∃ s', (r.arcsAt d.arcs p).foldlM tell { s with queue } = some s' ∧
      Tracks r d starts limit (fun _ q => (done ++ [p]).contains q) (done ++ [p]) s' ∧
      J (fun _ q => (done ++ [p]).contains q) s'.missing := by
  have hreached : s.reached = (done ++ [p]) ++ queue := by
    rw [h.inLine.reached_eq, hqueue, List.append_assoc]
    rfl
  have hfresh : p ∉ done := by
    have hnodup := h.inLine.nodup
    rw [hreached] at hnodup
    exact fun hp => (List.nodup_append.1 (List.nodup_append.1 hnodup).1).2.2 p hp p (List.mem_singleton.2 rfl) rfl
  have hp : p ∈ s.reached := hreached ▸ List.mem_append_left _ (List.mem_append_right _ (List.mem_singleton.2 rfl))
  have hstart : Tracks r d starts limit (fun _ q => done.contains q) (done ++ [p]) { s with queue } :=
    h.of_same ⟨hreached, h.inLine.nodup⟩ rfl rfl
  obtain ⟨s', hs', htracks, hJ'⟩ := ht.tell_all hstart hJ hp fun _ => by simpa using hfresh
  have heq : ∀ e ∈ r.transitions.zipIdx, ∀ q ∈ d.arcs e.1,
      tellAll (fun _ q => done.contains q) p (r.arcsAt d.arcs p) e.2 q = (done ++ [p]).contains q := by
    intro e he q hq
    rw [Bool.eq_iff_iff, tellAll_iff, List.contains_iff_mem, List.contains_iff_mem, List.mem_append,
      List.mem_singleton]
    exact or_congr_right ⟨And.left, fun hqp => ⟨hqp, e, mem_arcsAt.2 ⟨he, hqp ▸ hq⟩, rfl⟩⟩
  refine ⟨s', hs', htracks.congr heq fun i q htold => ?_, ht.counted_congr hJ' heq⟩
  rw [htracks.inLine.reached_eq]
  exact List.mem_append_left _ (List.contains_iff_mem.1 htold)

/-- In the end a transition that is ready has led on. -/
theorem Tracks.onward_of_ready (h : Tracks r d starts limit (fun _ q => s.reached.contains q) s.reached s)
    {tr : ResetTransition} (htr : tr ∈ r.transitions) (hready : d.ready tr s.reached.contains = true) :
    ∀ q ∈ d.onward tr, q ∈ s.reached := by
  obtain ⟨i, hi⟩ := List.mem_iff_getElem?.1 htr
  have he : (tr, i) ∈ r.transitions.zipIdx := List.mem_zipIdx_iff_getElem?.2 hi
  exact h.onward_reached _ he ((h.kept_iff _ he).2 hready)

/-- **A sweep that can tell its transitions comes to its end**, when every place reached has been told. -/
theorem Tells.exists_run (ht : Tells r d starts limit tell J) (hlt : ∀ p ∈ limit, p < r.size)
    (hstarts : ∀ p ∈ starts, p ∈ r.alive → p ∈ limit)
    (hidle : ∀ tr ∈ r.transitions, d.ready tr (fun _ => false) = false)
    (hJ : J (fun _ _ => false) (r.transitions.map fun tr => tr.preset.length)) :
    ∃ s, run tell (r.arcsAt d.arcs) r.size (r.sweepFrom starts) = some s ∧
      Tracks r d starts limit (fun _ q => s.reached.contains q) s.reached s := by
  have hreached (q : Nat) : q ∈ (r.sweepFrom starts).reached ↔ q ∈ starts ∧ q ∈ r.alive := by
    unfold ResetNet.sweepFrom
    rw [mem_reached_foldl_reach, List.mem_filter, List.contains_iff_mem]
    exact or_iff_right List.not_mem_nil
  have hkept : (r.sweepFrom starts).kept = [] := kept_foldl_reach _ _
  have hstart : Tracks r d starts limit (fun _ _ => false) [] (r.sweepFrom starts) := by
    refine ⟨InLine.foldl_reach _ ⟨rfl, List.nodup_nil⟩, fun q hq => ?_, fun q hq halive => (hreached q).2 ⟨hq, halive⟩,
      fun _ _ h => (nomatch h), fun e he => ?_, fun e he h => ?_⟩
    · obtain ⟨hq, halive⟩ := (hreached q).1 hq
      exact hstarts q hq halive
    · rw [hkept, hidle e.1 (List.fst_mem_of_mem_zipIdx he)]
      simp
    · rw [hkept] at h
      cases h
  have hmissing : (r.sweepFrom starts).missing = r.transitions.map fun tr => tr.preset.length := missing_foldl_reach _ _
  have hI : Tracks r d starts limit (fun _ q => List.contains [] q) [] (r.sweepFrom starts) ∧
      J (fun _ q => List.contains [] q) (r.sweepFrom starts).missing := ⟨hstart, hmissing ▸ hJ⟩
  obtain ⟨s, hs, htracks, -⟩ := Sweep.exists_run
    (I := fun done s => Tracks r d starts limit (fun _ q => done.contains q) done s ∧
      J (fun _ q => done.contains q) s.missing)
    (fun h => h.1.inLine) (fun h p hp => hlt p (h.1.reached_limit p hp)) (fun h hqueue => ht.turn h.1 h.2 hqueue) hI
    (Nat.le_add_right r.size _)
  exact ⟨s, hs, htracks⟩

/-! ## Back from the targets -/

theorem tells_back (h : r.WellFormed) (hnodup : ∀ tr ∈ r.transitions, tr.postset.Nodup) (targets : List Nat) :
    Tells r .back targets (r.restrictBackward targets).alive tellBack (fun _ _ => True) where
  exists_tell := fun {told done s e p} htracks _ he harc hp _ => by
    unfold tellBack
    by_cases hkept : e.2 ∈ s.kept
    · rw [if_pos (List.contains_iff_mem.2 hkept)]
      exact ⟨s, rfl, htracks.pass he hp fun _ => (htracks.kept_iff e he).1 hkept, trivial⟩
    · rw [if_neg (mt List.contains_iff_mem.1 hkept)]
      refine ⟨_, rfl, htracks.accept he hp (fun tr htr hready => ?_) ?_, trivial⟩
      · obtain ⟨q, hq, hmem⟩ := List.any_eq_true.1 hready
        exact (ResetNet.isLeast_restrictBackward h targets).1.preset_mem tr htr ⟨q, hq, List.contains_iff_mem.1 hmem⟩
      · exact List.any_eq_true.2 ⟨p, harc, tellOf_iff.2 (.inr ⟨rfl, rfl⟩)⟩
  counted_congr := fun _ _ => trivial
  nodup_arcs := hnodup

/-! ## Ahead from the marked places -/

/-- **Each counter is the number of input places that the transition has not been told.** -/
def Counted (r : ResetNet) (told : Nat → Nat → Bool) (missing : List Nat) : Prop :=
  ∀ e ∈ r.transitions.zipIdx, missing[e.2]? = some (e.1.preset.countP fun q => !told e.2 q)

/-- An input place told for the first time is one less to be told. -/
theorem countP_tellOf {l : List Nat} (hnodup : l.Nodup) (hp : p ∈ l) (hfresh : told i p = false) :
    l.countP (fun q => !told i q) = l.countP (fun q => !tellOf told i p i q) + 1 := by
  rw [← countP_erase_add hp, ← countP_erase_add hp (fun q => !tellOf told i p i q), hfresh,
    tellOf_iff.2 (.inr ⟨rfl, rfl⟩)]
  have heq : (l.erase p).countP (fun q => !told i q) = (l.erase p).countP (fun q => !tellOf told i p i q) :=
    List.countP_congr fun q hq => by rw [tellOf_self (hnodup.mem_erase_iff.1 hq).1]
  rw [heq]
  rfl

theorem Counted.set (h : Counted r told s.missing) (he : e ∈ r.transitions.zipIdx) :
    Counted r (tellOf told e.2 p) (s.missing.set e.2 (e.1.preset.countP fun q => !tellOf told e.2 p e.2 q)) := by
  intro e' he'
  by_cases hi : e'.2 = e.2
  · obtain rfl := eq_of_mem_zipIdx he he' hi
    exact List.getElem?_set_self (List.getElem?_eq_some_iff.1 (h e' he)).1
  · rw [List.getElem?_set_ne (Ne.symm hi), tellOf_of_ne hi]
    exact h e' he'

/-- **A counter never has to go below zero**: the place that is told is one that was missing. -/
theorem exists_tellAhead (htracks : Tracks r .ahead starts limit told done s) (hcounted : Counted r told s.missing)
    (he : e ∈ r.transitions.zipIdx) (hnodup : e.1.preset.Nodup) (harc : p ∈ e.1.preset) (hp : p ∈ s.reached)
    (hfresh : told e.2 p = false)
    (hlimit : ∀ tr ∈ r.transitions, tr.preset.all limit.contains = true → ∀ q ∈ tr.postset, q ∈ limit) :
    ∃ s', tellAhead s e = some s' ∧ Tracks r .ahead starts limit (tellOf told e.2 p) done s' ∧
      Counted r (tellOf told e.2 p) s'.missing := by
  have hset := hcounted.set (p := p) he
  have hcounter := hcounted e he
  rw [countP_tellOf hnodup harc hfresh] at hcounter
  generalize hn : e.1.preset.countP (fun q => !tellOf told e.2 p e.2 q) = n at hset hcounter
  have hall : e.1.preset.all (tellOf told e.2 p e.2) = true ↔ n = 0 := by
    rw [← hn, List.countP_eq_zero, List.all_eq_true]
    simp
  have htracks' : Tracks r .ahead starts limit told done { s with missing := s.missing.set e.2 n } :=
    htracks.of_same ⟨htracks.inLine.reached_eq, htracks.inLine.nodup⟩ rfl rfl
  unfold tellAhead
  rw [hcounter]
  refine ⟨_, rfl, ?_⟩
  by_cases hzero : n = 0
  · rw [if_pos hzero]
    refine ⟨htracks'.accept he hp hlimit (hall.2 hzero), ?_⟩
    have hmissing : (({ s with missing := s.missing.set e.2 n } : Sweep).accept e.2 e.1.postset).missing =
      s.missing.set e.2 n := missing_foldl_reach _ _
    rwa [hmissing]
  · rw [if_neg hzero]
    exact ⟨htracks'.pass he hp fun hready => absurd (hall.1 hready) hzero, hset⟩

theorem tells_ahead (h : r.WellFormed) (hnodup : ∀ tr ∈ r.transitions, tr.preset.Nodup) (marked : List Nat) :
    Tells r .ahead marked (r.restrictForward marked).alive tellAhead (Counted r) where
  exists_tell := fun htracks hcounted he harc hp hfresh =>
    exists_tellAhead htracks hcounted he (hnodup _ (List.fst_mem_of_mem_zipIdx he)) harc hp hfresh
      fun tr htr hready => (ResetNet.isLeast_restrictForward h marked).1.postset_mem tr htr fun q hq =>
        List.contains_iff_mem.1 (List.all_eq_true.1 hready q hq)
  counted_congr := fun hcounted heq e he => by
    rw [hcounted e he]
    exact congrArg some (List.countP_congr fun q hq => by rw [heq e he q hq])
  nodup_arcs := hnodup

end

end Sweep

namespace ResetNet

variable {r : ResetNet} {s : Sweep} {d : Sweep.Heading} {starts limit reached : List Nat}
  {kept : ResetTransition → Bool}

/-! ## What is left -/

/-- Keeping what a sweep has found is keeping the same places and transitions by any other description. -/
theorem keepSwept_eq (halive : ∀ p ∈ r.alive, p ∈ s.reached ↔ p ∈ reached)
    (hkept : ∀ e ∈ r.transitions.zipIdx, e.2 ∈ s.kept ↔ kept e.1 = true) : r.keepSwept s = r.keep reached kept := by
  have hsame : r.alive.filter s.reached.contains = r.alive.filter reached.contains := List.filter_congr fun p hp => by
    rw [Bool.eq_iff_iff, List.contains_iff_mem, List.contains_iff_mem]
    exact halive p hp
  have hnumbers : r.transitions.zipIdx.filter (fun e => s.kept.contains e.2) =
      r.transitions.zipIdx.filter (kept ∘ Prod.fst) := List.filter_congr fun e he => by
    rw [Bool.eq_iff_iff, List.contains_iff_mem]
    exact hkept e he
  have htransitions : (r.transitions.zipIdx.filter (kept ∘ Prod.fst)).map Prod.fst = r.transitions.filter kept := by
    rw [← List.filter_map, List.zipIdx_map_fst]
  unfold keepSwept keep
  rw [hsame, hnumbers, ← htransitions]
  dsimp only
  rw [List.map_map]
  rfl

/-- A sweep that has reached all it may reach leaves these places and the transitions that are ready with them. -/
theorem keepSwept_of_tracks (h : Sweep.Tracks r d starts limit (fun _ q => s.reached.contains q) s.reached s)
    (hlimit : ∀ p, p ∈ limit ↔ p ∈ r.alive ∧ p ∈ reached) (hall : ∀ p ∈ limit, p ∈ s.reached)
    (harcs : ∀ tr ∈ r.transitions, ∀ p ∈ d.arcs tr, p ∈ r.alive) :
    r.keepSwept s = r.keep reached (fun tr => d.ready tr reached.contains) := by
  have hreached : ∀ p ∈ r.alive, p ∈ s.reached ↔ p ∈ reached := fun p hp =>
    ⟨fun h' => ((hlimit p).1 (h.reached_limit p h')).2, fun h' => hall p ((hlimit p).2 ⟨hp, h'⟩)⟩
  refine keepSwept_eq hreached fun e he => (h.kept_iff e he).trans ?_
  rw [d.ready_congr fun p hp => ?_]
  rw [Bool.eq_iff_iff, List.contains_iff_mem, List.contains_iff_mem]
  exact hreached p (harcs e.1 (List.fst_mem_of_mem_zipIdx he) p hp)

/-- **The sweep back from the targets** finds what the closure finds. -/
theorem sweepBack_eq (h : r.WellFormed) (hnodup : ∀ tr ∈ r.transitions, tr.postset.Nodup) (targets : List Nat) :
    r.sweepBack targets = some (r.restrictBackward targets) := by
  obtain ⟨s, hs, htracks⟩ := (Sweep.tells_back h hnodup targets).exists_run
    (fun p hp => (h.restrictBackward targets).alive_lt p hp)
    (fun p hp halive => mem_alive_restrictBackward_of_mem targets hp halive)
    (fun tr _ => List.any_eq_false.2 fun _ _ => Bool.false_ne_true) trivial
  have hclosed : r.ClosedBackward targets {p | p ∈ s.reached} := by
    refine ⟨htracks.starts_reached, fun tr htr ⟨q, hq, hreached⟩ => ?_⟩
    exact htracks.onward_of_ready htr (List.any_eq_true.2 ⟨q, hq, List.contains_iff_mem.2 hreached⟩)
  have hkeep : r.keepSwept s = r.restrictBackward targets :=
    keepSwept_of_tracks htracks (fun p => mem_alive_restrictBackward)
      (fun p hp => (isLeast_restrictBackward h targets).2 hclosed hp) h.postset_alive
  exact (congrArg (Option.map r.keepSwept) hs).trans (congrArg some hkeep)

/-- **The sweep ahead from the marked places** finds what the closure finds, and no counter has to go below zero. -/
theorem sweepAhead_eq (h : r.WellFormed) (hpreset : ∀ tr ∈ r.transitions, tr.preset ≠ [] ∧ tr.preset.Nodup)
    (marked : List Nat) : r.sweepAhead marked = some (r.restrictForward marked) := by
  obtain ⟨s, hs, htracks⟩ := (Sweep.tells_ahead h (fun tr htr => (hpreset tr htr).2) marked).exists_run
    (fun p hp => (h.restrictForward marked).alive_lt p hp)
    (fun p hp halive => (isLeast_restrictForward h marked).1.marked_mem p hp halive)
    (fun tr htr => by
      obtain ⟨p, hp⟩ := List.exists_mem_of_ne_nil _ (hpreset tr htr).1
      exact List.all_eq_false.2 ⟨p, hp, Bool.false_ne_true⟩)
    (fun e he => by
      rw [List.getElem?_map, List.mem_zipIdx_iff_getElem?.1 he]
      simp)
  have hclosed : r.ClosedForward marked {p | p ∈ s.reached} := by
    refine ⟨htracks.starts_reached, fun tr htr hall => ?_⟩
    exact htracks.onward_of_ready htr (List.all_eq_true.2 fun p hp => List.contains_iff_mem.2 (hall p hp))
  have hkeep : r.keepSwept s = r.restrictForward marked :=
    keepSwept_of_tracks htracks (fun p => mem_alive_restrictForward)
      (fun p hp => (isLeast_restrictForward h marked).2 hclosed hp) h.preset_alive
  exact (congrArg (Option.map r.keepSwept) hs).trans (congrArg some hkeep)

end ResetNet

end Workflow
