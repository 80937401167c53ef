import Mathlib.Data.List.SplitBy
import Workflow.Case.Moves
import Workflow.Proofs.Firing
/-!
# Journal — the log explains the marking

A case changes its marking in one place and writes its log in another, and an operation may fail after it has done both.
The log tells the truth all the same: replayed from the marking that was restored last, or from the initial one, every
entry fits the counts that it meets, and the counts at the end are those of the case (`log_explains_marking`).  The
steps are in the log as well, since each firing takes its tokens in one go.
-/
namespace Workflow

namespace Change

variable {x y : Counts} {l m : List Change}

/-! ## Replaying -/

theorem replayAll?_append : ∀ (x : Counts) (l m : List Change),
    replayAll? x (l ++ m) = (replayAll? x l).bind (replayAll? · m)
  | _, [], _ => rfl
  | x, c :: l, m => by
    rw [List.cons_append, replayAll?, replayAll?, Option.bind_assoc]
    exact congrArg _ (funext fun y => replayAll?_append y l m)

/-- What has been replayed up to `y` goes on from there. -/
theorem replayAll?_append_of_eq (h : replayAll? x l = some y) : replayAll? x (l ++ m) = replayAll? y m := by
  rw [replayAll?_append, h, Option.bind_some]

/-! ## The part of the log that counts -/

theorem sinceRestore_eq_self : ∀ {l : List Change}, .restore ∉ l → sinceRestore l = l
  | [], _ => rfl
  | c :: l, h => by
    obtain ⟨hc, hl⟩ := List.ne_and_not_mem_of_not_mem_cons h
    rw [sinceRestore, if_neg hl, if_neg (Ne.symm hc)]

theorem sinceRestore_append (hm : .restore ∉ m) : ∀ l : List Change, sinceRestore (l ++ m) = sinceRestore l ++ m
  | [] => sinceRestore_eq_self hm
  | c :: l => by
    have hmem : .restore ∈ l ++ m ↔ .restore ∈ l := by
      rw [List.mem_append, or_iff_left hm]
    rw [List.cons_append, sinceRestore, sinceRestore, sinceRestore_append hm l]
    by_cases hl : .restore ∈ l
    · rw [if_pos (hmem.2 hl), if_pos hl]
    · rw [if_neg (fun h => hl (hmem.1 h)), if_neg hl]
      split <;> rfl

theorem sinceRestore_append_restore : ∀ l : List Change, sinceRestore (l ++ [.restore]) = []
  | [] => rfl
  | c :: l => by
    rw [List.cons_append, sinceRestore, if_pos (List.mem_append_right l (List.mem_singleton.2 rfl)),
      sinceRestore_append_restore l]

/-! ## Blocks of consumptions -/

/-- No block goes on across a change that is not a consumption. -/
theorem consumeBlocks_append (h : (∀ c ∈ l.getLast?, c.isConsume = false) ∨ ∀ c ∈ m.head?, c.isConsume = false) :
    consumeBlocks (l ++ m) = consumeBlocks l + consumeBlocks m := by
  have hsplit : ∀ c ∈ l.getLast?, ∀ d ∈ m.head?, (c.isConsume && d.isConsume) = false := by
    intro c hc d hd
    rcases h with h | h
    · rw [h c hc, Bool.false_and]
    · rw [h d hd, Bool.and_false]
  unfold consumeBlocks
  rw [List.splitBy_append hsplit, List.countP_append]

theorem consumeBlocks_of_not_consume (h : ∀ c ∈ l, c.isConsume = false) : consumeBlocks l = 0 := by
  refine List.countP_eq_zero.2 fun b hb hany => ?_
  obtain ⟨c, hc, hconsume⟩ := List.any_eq_true.1 hany
  have hmem : c ∈ l := by
    rw [← List.flatten_splitBy (fun c d => c.isConsume && d.isConsume) l]
    exact List.mem_flatten.2 ⟨b, hb, hc⟩
  rw [h c hmem] at hconsume
  cases hconsume

theorem consumeBlocks_of_consume (hne : l ≠ []) (h : ∀ c ∈ l, c.isConsume = true) : consumeBlocks l = 1 := by
  have hchain : l.IsChain fun c d => (c.isConsume && d.isConsume) = true :=
    (List.pairwise_of_forall_mem_list fun c hc d hd => by rw [h c hc, h d hd]; rfl).isChain
  unfold consumeBlocks
  rw [List.splitBy_of_isChain hne hchain]
  obtain ⟨c, hc⟩ := List.exists_mem_of_ne_nil l hne
  have hany : l.any isConsume = true := List.any_eq_true.2 ⟨c, hc, h c hc⟩
  rw [List.countP_singleton, if_pos hany]

end Change

/-! ## A firing in the log -/

namespace Marking

variable {m m' : Marking}

theorem replay_takeFrom (t : TransitionId) : ∀ {ps : List PlaceId} {m m' : Marking}, m.takeFrom ps = .ok m' →
    Change.replayAll? m.count (ps.map (Change.consume · t)) = some m'.count
  | [], m, m', h => by
    cases h
    rfl
  | p :: ps, m, m', h => by
    unfold takeFrom at h
    split at h
    · cases h
    · rename_i m₁ hremove
      have hpos : 0 < m.count p := le_count_of_remove hremove
      have hcount : Counts.move [p] [] [] m.count = m₁.count := by
        funext q
        rw [count_of_remove hremove, Counts.move]
        by_cases hq : q = p
        · subst hq
          simp
        · simp [hq]
      rw [List.map_cons, Change.replayAll?, Change.replay?, if_pos hpos, Option.bind_some, hcount]
      exact replay_takeFrom t h

theorem replay_putOn (t : TransitionId) : ∀ {ps : List PlaceId} {m m' : Marking}, m.putOn ps = .ok m' →
    Change.replayAll? m.count (ps.map (Change.produce · t)) = some m'.count
  | [], m, m', h => by
    cases h
    rfl
  | p :: ps, m, m', h => by
    unfold putOn at h
    split at h
    · cases h
    · rename_i m₁ hadd
      have hcount : Counts.move [] [p] [] m.count = m₁.count := by
        funext q
        rw [count_of_add hadd, Counts.move]
        by_cases hq : q = p
        · subst hq
          simp
        · simp [hq]
      rw [List.map_cons, Change.replayAll?, Change.replay?, Option.bind_some, hcount]
      exact replay_putOn t h

/-- Clearing a place that is empty leaves no trace, in the marking and in the log. -/
theorem replay_clearPlaces (t : TransitionId) : ∀ {ps : List PlaceId} {m m' : Marking}
    {removed : List (PlaceId × Nat)}, m.clearPlaces ps = .ok (removed, m') →
    Change.replayAll? m.count (removed.map (fun e => Change.cancel e.1 t e.2)) = some m'.count
  | [], m, m', _, h => by
    cases h
    rfl
  | p :: ps, m, m', _, h => by
    unfold clearPlaces at h
    split at h
    · cases h
    · rename_i n m₁ hclear
      split at h
      · cases h
      · rename_i removed m₂ hrest
        cases h
        have ih := replay_clearPlaces t hrest
        obtain ⟨-, hcount⟩ := clearPlace_ok hclear
        obtain rfl := eq_count_of_clearPlace hclear
        by_cases hzero : m.count p = 0
        · have hsame : m₁.count = m.count := funext fun q => by
            rw [hcount]
            by_cases hq : q = p
            · rw [if_pos hq, hq, hzero]
            · rw [if_neg hq]
          rwa [if_pos hzero, ← hsame]
        · have hmove : Counts.move [] [] [p] m.count = m₁.count := funext fun q => by
            rw [hcount, Counts.move]
            by_cases hq : q = p <;> simp [hq]
          rw [if_neg hzero, List.map_cons, Change.replayAll?, Change.replay?,
            if_pos ⟨rfl, Nat.pos_of_ne_zero hzero⟩, Option.bind_some, hmove]
          exact ih

end Marking

namespace Net

variable {net : Net} {limits : AnalysisLimits} {m m' : Marking} {t : TransitionId} {s : Selection} {f : Firing}

/-- **What a firing enters in the log**: changes that lead from the marking before it to the marking after it, with one
block of consumptions, which comes first and is not the whole of it. -/
theorem replay_fire (h : net.fire limits m t s = .ok (f, m')) :
    Change.replayAll? m.count f.changes = some m'.count ∧ Change.consumeBlocks f.changes = 1 ∧
      .restore ∉ f.changes ∧ ∀ c ∈ f.changes.getLast?, c.isConsume = false := by
  obtain ⟨hcheck, take, m₁, m₂, removed, hen, htake, hput, hclear, rfl⟩ := fire_parts h
  obtain ⟨-, -, e, he, hsub⟩ := enablement_take hen
  have htakes : take.map (Change.consume · t) ≠ [] := by
    obtain ⟨p, hp⟩ := List.exists_mem_of_ne_nil e (ne_nil_of_mem_eagerTakes he)
    exact List.ne_nil_of_mem (List.mem_map_of_mem (hsub p hp))
  have hputs : s.places.map (Change.produce · t) ≠ [] := by
    simpa using Selection.ne_nil_of_check hcheck
  have hconsume : ∀ c ∈ take.map (Change.consume · t), c.isConsume = true := by
    intro c hc
    obtain ⟨p, -, rfl⟩ := List.mem_map.1 hc
    rfl
  generalize hrest : s.places.map (Change.produce · t) ++ removed.map (fun e => Change.cancel e.1 t e.2) = rest
  have hother : ∀ c ∈ rest, c.isConsume = false ∧ c ≠ .restore := by
    rw [← hrest]
    intro c hc
    rcases List.mem_append.1 hc with hc | hc <;> obtain ⟨e, -, rfl⟩ := List.mem_map.1 hc <;> exact ⟨rfl, nofun⟩
  have hrests : rest ≠ [] := by
    rw [← hrest]
    exact List.append_ne_nil_of_left_ne_nil hputs _
  have hchanges : (Firing.ofParts t take s.places removed).changes = take.map (Change.consume · t) ++ rest := by
    rw [← hrest, Firing.ofParts, List.append_assoc]
  rw [hchanges]
  refine ⟨?_, ?_, fun hmem => ?_, fun c hc => ?_⟩
  · rw [Change.replayAll?_append_of_eq (Marking.replay_takeFrom t htake), ← hrest,
      Change.replayAll?_append_of_eq (Marking.replay_putOn t hput)]
    exact Marking.replay_clearPlaces t hclear
  · rw [Change.consumeBlocks_append (.inr fun c hc => (hother c (List.mem_of_mem_head? hc)).1),
      Change.consumeBlocks_of_consume htakes hconsume, Change.consumeBlocks_of_not_consume fun c hc => (hother c hc).1]
  · rcases List.mem_append.1 hmem with hmem | hmem
    · exact absurd (hconsume _ hmem) Bool.false_ne_true
    · exact (hother _ hmem).2 rfl
  · rw [List.getLast?_append_of_ne_nil _ hrests] at hc
    exact (hother c (List.mem_of_getLast? hc)).1

end Net

/-! ## The log of a case -/

namespace Case

variable {c d : Case} {base : Marking} {n : Nat}

/-- The log leads from `base` to the marking of the case, over `n` restorings, and tells of each step. -/
structure Told (c : Case) (base : Marking) (n : Nat) : Prop where
  replayed : Change.replayAll? base.count (Change.sinceRestore c.changes.toList) = some c.marking.count
  restores : c.changes.toList.count .restore = n
  steps : c.steps = Change.consumeBlocks c.changes.toList
  ended : ∀ last ∈ c.changes.toList.getLast?, last.isConsume = false

theorem told_launch (net : Net) (id : CaseId) (limits : RunLimits) :
    (launch net id limits).Told (Marking.initial net) 0 :=
  ⟨rfl, rfl, rfl, nofun⟩

/-- An entry that is no consumption begins no block. -/
theorem Told.push (h : c.Told base n) {e : Change} (he : e.isConsume = false) :
    c.steps = Change.consumeBlocks (c.changes.push e).toList ∧
      ∀ last ∈ (c.changes.push e).toList.getLast?, last.isConsume = false := by
  have hone : Change.consumeBlocks [e] = 0 := Change.consumeBlocks_of_not_consume (by simpa using he)
  rw [Array.toList_push, Change.consumeBlocks_append (.inl h.ended), hone, h.steps]
  exact ⟨rfl, by simpa using he⟩

theorem Advance.told (h : c.Advance d) (hc : c.Told base n) : d.Told base n := by
  cases h with
  | settle hs => exact ⟨hc.replayed, hc.restores, hc.steps, hc.ended⟩
  | @fire t s f m hactive hfire =>
    obtain ⟨hreplay, hblocks, hrestore, hended⟩ := Net.replay_fire hfire
    have hlog : (c.record f m).changes.toList = c.changes.toList ++ f.changes := Array.toList_appendList
    have hne : f.changes ≠ [] := by
      intro hnil
      rw [hnil] at hblocks
      cases hblocks
    refine ⟨?_, ?_, ?_, ?_⟩
    · rw [hlog, Change.sinceRestore_append hrestore, Change.replayAll?_append_of_eq hc.replayed]
      exact hreplay
    · rw [hlog, List.count_append, List.count_eq_zero.2 hrestore, hc.restores, Nat.add_zero]
    · rw [hlog, Change.consumeBlocks_append (.inl hc.ended), hblocks, ← hc.steps]
      rfl
    · rw [hlog, List.getLast?_append_of_ne_nil _ hne]
      exact hended
  | cancel hne =>
    rw [cancel_eq hne]
    have hclear : Change.replayAll? c.marking.count [.reset] = some c.marking.clear.count :=
      congrArg some (funext fun p => (Marking.count_clear c.marking p).symm)
    obtain ⟨hsteps, hended⟩ := hc.push (e := .reset) rfl
    refine ⟨?_, ?_, hsteps, hended⟩
    · dsimp only
      rw [Array.toList_push, Change.sinceRestore_append (by decide), Change.replayAll?_append_of_eq hc.replayed]
      exact hclear
    · dsimp only
      rw [Array.toList_push, List.count_append, hc.restores]
      rfl

/-- After a restoring the log starts from the marking that was restored. -/
theorem Told.restore {m : Marking} (hc : c.Told base n) :
    { c with marking := m, state := .active, changes := c.changes.push .restore : Case }.Told m (n + 1) := by
  obtain ⟨hsteps, hended⟩ := hc.push (e := .restore) rfl
  refine ⟨?_, ?_, hsteps, hended⟩
  · dsimp only
    rw [Array.toList_push, Change.sinceRestore_append_restore]
    rfl
  · dsimp only
    rw [Array.toList_push, List.count_append, hc.restores]
    rfl

/-- **One action**: the log starts anew from the marking that the action installs, and goes on if it installs none. -/
theorem Told.act (hc : c.Told base n) (a : Action) :
    (c.act a).2.Told ((a.installs? c.net).getD base) (n + (a.installs? c.net).toList.length) := by
  by_cases ha : ∀ tokens, a ≠ .restore tokens
  · have hnone : a.installs? c.net = none := by
      cases a with
      | restore tokens => exact absurd rfl (ha tokens)
      | _ => rfl
    rw [hnone]
    exact keeps_advances Advance.told (advances_act c ha) hc
  · obtain ⟨tokens, hrestore⟩ := Classical.not_forall.1 ha
    obtain rfl := Classical.not_not.1 hrestore
    rw [Case.act, snd_of, Case.restore]
    cases hm : Marking.ofTokenMap c.net tokens with
    | error failure =>
      rw [Action.installs?, hm]
      exact hc
    | ok m =>
      rw [Action.installs?, hm]
      exact keeps_advances Advance.told (advances_settle _ ()) hc.restore

theorem Told.after (hc : c.Told base n) (actions : List Action) :
    (c.after actions).Told ((actions.filterMap (Action.installs? c.net)).getLast?.getD base)
      (n + (actions.filterMap (Action.installs? c.net)).length) := by
  induction actions generalizing c base n with
  | nil => exact hc
  | cons a actions ih =>
    have hnet : (c.act a).2.net = c.net := (moves_act c a).same.2.1
    have hrest := ih (hc.act a)
    rw [hnet] at hrest
    cases hm : a.installs? c.net with
    | none =>
      rw [hm] at hrest
      rw [List.filterMap_cons_none hm]
      exact hrest
    | some m =>
      rw [hm] at hrest
      rw [List.filterMap_cons_some hm, List.getLast?_cons, List.length_cons, Nat.add_comm _ 1, ← Nat.add_assoc]
      exact hrest

/-- **The log explains the marking**, after any history, failed actions included.  Every restoring that took over a
marking has its entry.  Replayed from the marking that was restored last, or from the initial one, the entries behind
the last restoring fit the counts they meet and lead to the marking of the case.  There are as many blocks of
consumptions in the whole log as steps were taken. -/
theorem log_explains_marking (net : Net) (id : CaseId) (limits : RunLimits) (actions : List Action) :
    let c := (launch net id limits).after actions
    Change.replayAll? (lastInstalled net actions).count (Change.sinceRestore c.changes.toList) = some c.marking.count ∧
      c.changes.toList.count .restore = (actions.filterMap (Action.installs? net)).length ∧
      c.steps = Change.consumeBlocks c.changes.toList := by
  have htold := (told_launch net id limits).after actions
  exact ⟨htold.replayed, htold.restores.trans (Nat.zero_add _), htold.steps⟩

end Case

end Workflow
