import Workflow.Proofs.OrJoin
/-!
# Rounds — how far a search sees

A search may be made in any part that restrictions have left of a reset net.  Its answer is true of the runs of that
part, of whatever length.  Beyond that, a round looks exactly one firing further back: a search of `k` rounds finds
every run of at most `k` firings, and one that runs out of them has missed none (`canCover_exact`).
-/
namespace Workflow

variable {net : Net} {l limits : AnalysisLimits} {r : ResetNet} {source : Counts} {targets : List Nat}

/-- However a reset net is restricted, and how often, its arcs stay within it. -/
theorem ResetNet.PartOf.wellFormed (h : ResetNet.PartOf net l r) : r.WellFormed := by
  induction h with
  | whole hr => exact Net.wellFormed_toResetNet hr
  | withoutStartsOf t _ ih => exact ih.withoutStartsOf t
  | restrictBackward targets _ ih => exact ih.restrictBackward targets
  | restrictForward marked _ ih => exact ih.restrictForward marked

/-- The tokens on dropped places might as well not be there. -/
theorem search_within : r.search limits (source.within r.alive) = r.search limits source :=
  ResetNet.search_congr limits fun _ hp => Counts.within_of_mem hp

/-- **The bound on the rounds is tight.**  Unless the basis grows too large, the answer is yes for the runs of at most
that many firings and for no others, and the search only runs out of rounds when there is no such run. -/
theorem canCover_within_rounds (hr : r.TakesAlive) (halive : ∀ p ∈ targets, p ∈ r.alive)
    (hbasis : (r.search limits source).canCover targets ≠ .error (.excess (.basis limits.basis))) :
    ((r.search limits source).canCover targets = .ok true ↔ r.CoverableIn limits.rounds source targets) ∧
      ∀ failure, (r.search limits source).canCover targets = .error failure →
        failure = .excess (.rounds limits.rounds) ∧ ¬ r.CoverableIn limits.rounds source targets := by
  have hanswer := canCover_answers limits source hr halive
  cases hcan : (r.search limits source).canCover targets with
  | error failure =>
    rw [hcan] at hanswer hbasis
    obtain ⟨hrounds, hnone⟩ := hanswer.resolve_left fun h => hbasis (congrArg Except.error h)
    rw [leadsAbove_goalOf_iff halive] at hnone
    refine ⟨⟨fun h => (nomatch h), fun h => absurd h hnone⟩, fun failure' h => ?_⟩
    cases h
    exact ⟨hrounds, hnone⟩
  | ok b =>
    rw [hcan] at hanswer
    refine ⟨?_, fun failure h => nomatch h⟩
    cases b with
    | true => exact ⟨fun _ => (leadsAbove_goalOf_iff halive).1 hanswer, fun _ => rfl⟩
    | false => exact ⟨fun h => (nomatch h), fun h => absurd ((leadsAbove_goalOf_iff halive).2 h) (hanswer _)⟩

/-- **The search is exact, round by round**, in every part of a reset net.  Whether the targets can be covered is asked
of the tokens on the places that have not been dropped, and an answer is true of runs of any length.  A search whose
basis keeps within its limit says yes if some run of at most as many firings as it has rounds covers the targets, and
only then; it fails for want of rounds only if there is no such run. -/
theorem canCover_exact (hr : ResetNet.PartOf net l r) (limits : AnalysisLimits) (source : Counts)
    (targets : List Nat) :
    (∀ b, (r.search limits source).canCover targets = .ok b →
      (b = true ↔ (∀ p ∈ targets, p ∈ r.alive) ∧ r.Coverable (source.within r.alive) targets)) ∧
    ((∀ p ∈ targets, p ∈ r.alive) →
      (r.search limits source).canCover targets ≠ .error (.excess (.basis limits.basis)) →
      ((r.search limits source).canCover targets = .ok true ↔
        r.CoverableIn limits.rounds (source.within r.alive) targets) ∧
      ∀ failure, (r.search limits source).canCover targets = .error failure →
        failure = .excess (.rounds limits.rounds) ∧
          ¬ r.CoverableIn limits.rounds (source.within r.alive) targets) := by
  have htakes := hr.wellFormed.preset_alive
  rw [← search_within]
  exact ⟨fun b h => canCover_ok htakes h, canCover_within_rounds htakes⟩

/-- The answer to the offer is two firings away, the start and the finish of `b`: two rounds find it, one does not. -/
theorem Net.offer_two_rounds : ∃ r : ResetNet, ResetNet.PartOf offer {} r ∧
    r.CoverableIn 2 (Counts.within (Marking.mk [0, 1, 1, 0, 1, 0, 0, 0]).count r.alive) [1, 5] ∧
    (r.search { rounds := 1 } (Marking.mk [0, 1, 1, 0, 1, 0, 0, 0]).count).canCover [1, 5] =
      .error (.excess (.rounds 1)) ∧
    ¬ r.CoverableIn 1 (Counts.within (Marking.mk [0, 1, 1, 0, 1, 0, 0, 0]).count r.alive) [1, 5] := by
  have hsearch : (offer.orJoinNet {} 3 ⟨[0, 1, 1, 0, 1, 0, 0, 0]⟩).map (fun r =>
      ([1, 5].all r.alive.contains,
        (r.search { rounds := 2 } (Marking.mk [0, 1, 1, 0, 1, 0, 0, 0]).count).canCover [1, 5],
        (r.search { rounds := 1 } (Marking.mk [0, 1, 1, 0, 1, 0, 0, 0]).count).canCover [1, 5])) =
      .ok (true, .ok true, .error (.excess (.rounds 1))) := rfl
  cases hnet : offer.orJoinNet {} 3 ⟨[0, 1, 1, 0, 1, 0, 0, 0]⟩ with
  | error failure =>
    rw [hnet] at hsearch
    cases hsearch
  | ok r =>
    rw [hnet] at hsearch
    obtain ⟨hall, hboth⟩ := Prod.mk.inj (Except.ok.inj hsearch)
    obtain ⟨htwo, hone⟩ := Prod.mk.inj hboth
    have halive : ∀ p ∈ [1, 5], p ∈ r.alive := fun p hp => List.contains_iff_mem.1 (List.all_eq_true.1 hall p hp)
    have hpart : ResetNet.PartOf offer {} r := by
      obtain ⟨whole, hwhole, rfl⟩ := orJoinNet_ok hnet
      exact .restrictForward _ (.restrictBackward _ (.withoutStartsOf 3 (.whole hwhole)))
    obtain ⟨-, hexact⟩ := canCover_exact hpart { rounds := 2 } (Marking.mk [0, 1, 1, 0, 1, 0, 0, 0]).count [1, 5]
    obtain ⟨-, hexact'⟩ := canCover_exact hpart { rounds := 1 } (Marking.mk [0, 1, 1, 0, 1, 0, 0, 0]).count [1, 5]
    exact ⟨r, hpart, (hexact halive (by simp [htwo])).1.1 htwo, hone, ((hexact' halive (by simp [hone])).2 _ hone).2⟩

end Workflow
