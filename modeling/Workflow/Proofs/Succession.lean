import Mathlib.Data.List.Nodup
import Mathlib.Data.List.Perm.Basic
import Workflow.Case.Dialogue
import Workflow.Proofs.RoundTrip
import Workflow.Proofs.Scan
/-!
# Succession — every firing that is possible, once

What one firing can lead to is listed by transition and selection.  The selections that are tried are made from the
split alone, those that a firing lets pass are checked one by one, and both are the same, up to the order in which
places are selected (`enumerates_admissibleSelections`).  The order does not matter for the marking that results
(`marking_eq_of_sameAs`), so the list has every firing that succeeds, and none of them twice (`successors_exact`).
-/
namespace Workflow

/-! ## Choices, each once -/

theorem nodup_choices {α : Type} : ∀ {k : Nat} {l : List α}, l.Nodup → (choices k l).Nodup
  | 0, l, _ => by simp [choices]
  | _ + 1, [], _ => List.nodup_nil
  | k + 1, a :: l, h => by
    obtain ⟨ha, hl⟩ := List.nodup_cons.1 h
    have hwith : ((choices k l).map (a :: ·)).Nodup := (nodup_choices hl).map List.cons_injective
    refine hwith.append (nodup_choices hl) fun c hc hc' => ?_
    obtain ⟨c₀, -, rfl⟩ := List.mem_map.1 hc
    exact ha ((sublist_of_mem_choices hc').subset List.mem_cons_self)

theorem nodup_nonemptyChoices {α : Type} {l : List α} (h : l.Nodup) : (nonemptyChoices l).Nodup := by
  have hsizes : (List.range' 1 l.length).Nodup := List.nodup_range'
  refine List.nodup_flatMap.2 ⟨fun k _ => nodup_choices h, hsizes.imp fun hne c hc hc' => hne ?_⟩
  exact (length_of_mem_choices hc).symm.trans (length_of_mem_choices hc')

/-- Choices from a list without repetitions are told apart by their members. -/
theorem eq_of_mem_nonemptyChoices {α : Type} {l c c' : List α} (h : l.Nodup) (hc : c ∈ nonemptyChoices l)
    (hc' : c' ∈ nonemptyChoices l) (hsame : ∀ a, a ∈ c ↔ a ∈ c') : c = c' := by
  have hsub := (mem_nonemptyChoices.1 hc).1
  have hsub' := (mem_nonemptyChoices.1 hc').1
  have hperm : c.Perm c' := (List.perm_ext_iff_of_nodup (h.sublist hsub) (h.sublist hsub')).2 hsame
  exact (h.perm_iff_eq_of_sublist hsub hsub').1 hperm

/-! ## Selections of the same places -/

namespace Selection

/-- The same places are selected, in whatever order. -/
def SameAs (s s' : Selection) : Prop := ∀ p, p ∈ s.places ↔ p ∈ s'.places

theorem mem_ofList {l : List PlaceId} {p : PlaceId} : p ∈ (ofList l).places ↔ p ∈ l := List.mem_eraseDups

theorem ofList_ne_nil {l : List PlaceId} (h : l ≠ []) : (ofList l).places ≠ [] := by
  obtain ⟨p, hp⟩ := List.exists_mem_of_ne_nil l h
  exact List.ne_nil_of_mem (mem_ofList.2 hp)

end Selection

namespace Net

variable {net : Net} {limits : AnalysisLimits} {m m₁ m₂ : Marking} {t : TransitionId} {s s' : Selection}
  {f f₁ f₂ : Firing} {ss : List Selection} {p : PlaceId}

/-- **The order in which places are selected does not matter** for the marking that results. -/
theorem marking_eq_of_sameAs (h₁ : net.fire limits m t s = .ok (f₁, m₁)) (h₂ : net.fire limits m t s' = .ok (f₂, m₂))
    (h : s.SameAs s') : m₁ = m₂ := by
  obtain ⟨-, take, hen, hsize₁, hcount₁⟩ := fire_ok h₁
  obtain ⟨-, take', hen', hsize₂, hcount₂⟩ := fire_ok h₂
  cases hen.symm.trans hen'
  refine Marking.ext_count (hsize₁.trans hsize₂.symm) fun p _ => ?_
  simp only [hcount₁, hcount₂, Counts.move, h p]

/-! ## The selections that are tried -/

/-- The list has every selection that suits `t`, up to the order of its places, and each once. -/
structure Enumerates (net : Net) (t : TransitionId) (ss : List Selection) : Prop where
  suits : ∀ s ∈ ss, s.Suits net t
  complete : ∀ s, s.Suits net t → ∃ s' ∈ ss, s'.SameAs s
  once : ss.Pairwise fun s s' => ¬ s.SameAs s'

/-- Only an XOR-split does not let all output places be selected. -/
theorem suits_all (ht : t < net.transitions.length) (hsplit : (net.transitions[t]?).map Transition.split ≠ some .xor) :
    (Selection.all net t).Suits net t :=
  ⟨Selection.ofList_ne_nil (postset_ne_nil ht), fun _ => Selection.mem_ofList.1,
    fun _ _ => Selection.mem_ofList.2, fun hxor => absurd hxor hsplit⟩

/-- Any one output place may be selected, unless it is an AND-split. -/
theorem suits_single (hp : p ∈ net.postset t) (hsplit : (net.transitions[t]?).map Transition.split ≠ some .and) :
    (Selection.single p).Suits net t :=
  ⟨List.cons_ne_nil p [], by simpa [Selection.single] using hp, fun hand => absurd hand hsplit, fun _ => ⟨p, rfl⟩⟩

theorem enumerates_all (hsplit : (net.transitions[t]?).map Transition.split = some .and) :
    net.Enumerates t [Selection.all net t] where
  suits := by
    have ht : t < net.transitions.length := by
      obtain ⟨tr, htr, -⟩ := Option.map_eq_some_iff.1 hsplit
      exact (List.getElem?_eq_some_iff.1 htr).1
    exact List.forall_mem_singleton.2 (suits_all ht (by simp [hsplit]))
  complete := by
    intro s hs
    exact ⟨_, List.mem_singleton_self _, fun p => Selection.mem_ofList.trans ⟨hs.whole hsplit p, hs.outputs p⟩⟩
  once := List.pairwise_singleton _ _

theorem enumerates_single (hsplit : (net.transitions[t]?).map Transition.split = some .xor) :
    net.Enumerates t ((net.postset t).map Selection.single) where
  suits := by
    exact List.forall_mem_map.2 fun p hp => suits_single hp (by simp [hsplit])
  complete := by
    intro s hs
    obtain ⟨p, hp⟩ := hs.single hsplit
    have hmem : p ∈ net.postset t := hs.outputs p (by simp [hp])
    exact ⟨_, List.mem_map_of_mem hmem, fun q => by simp [Selection.single, hp]⟩
  once := by
    apply List.pairwise_map.2
    refine (net.nodup_postset t).imp fun {p q} hne hsame => hne ?_
    exact List.mem_singleton.1 ((hsame p).1 (List.mem_singleton_self p))

theorem enumerates_choices (hsplit : (net.transitions[t]?).map Transition.split = some .or) :
    net.Enumerates t ((nonemptyChoices (net.postset t)).map Selection.ofList) where
  suits := by
    refine List.forall_mem_map.2 fun c hc => ?_
    obtain ⟨hsub, hne⟩ := mem_nonemptyChoices.1 hc
    exact ⟨Selection.ofList_ne_nil hne, fun p hp => hsub.subset (Selection.mem_ofList.1 hp), by simp [hsplit],
      by simp [hsplit]⟩
  complete := by
    intro s hs
    -- the selected places, in the order of the outputs
    have hmem : ∀ p, p ∈ (net.postset t).filter s.places.contains ↔ p ∈ s.places := fun p => by
      simpa using hs.outputs p
    obtain ⟨p, hp⟩ := List.exists_mem_of_ne_nil _ hs.nonempty
    have hchoice : (net.postset t).filter s.places.contains ∈ nonemptyChoices (net.postset t) :=
      mem_nonemptyChoices.2 ⟨List.filter_sublist, List.ne_nil_of_mem ((hmem p).2 hp)⟩
    exact ⟨_, List.mem_map_of_mem hchoice, fun q => Selection.mem_ofList.trans (hmem q)⟩
  once := by
    apply List.pairwise_map.2
    refine (nodup_nonemptyChoices (net.nodup_postset t)).imp_of_mem fun {c c'} hc hc' hne hsame => hne ?_
    refine eq_of_mem_nonemptyChoices (net.nodup_postset t) hc hc' fun p => ?_
    rw [← Selection.mem_ofList, ← Selection.mem_ofList (l := c')]
    exact hsame p

/-- **What is tried is what is let pass.** -/
theorem enumerates_admissibleSelections (h : net.admissibleSelections limits t = .ok ss) : net.Enumerates t ss := by
  unfold admissibleSelections at h
  split at h
  · cases h
  · rename_i hsplit
    cases h
    exact enumerates_all hsplit
  · rename_i hsplit
    cases h
    exact enumerates_single hsplit
  · rename_i hsplit
    split at h
    · cases h
    · cases h
      exact enumerates_choices hsplit

end Net

namespace Case

variable {c : Case} {t : TransitionId} {s : Selection} {f : Firing} {m : Marking} {l : List Successor}

/-! ## The list of successors -/

/-- The list has every firing that succeeds in `c`, up to the order of the selected places, and each once. -/
structure ListsFirings (c : Case) (l : List Successor) : Prop where
  sound : ∀ e ∈ l, ∃ f, c.net.fire c.limits.analysis c.marking e.transition e.selection = .ok (f, e.marking)
  complete : ∀ t s f m, c.net.fire c.limits.analysis c.marking t s = .ok (f, m) →
    ∃ e ∈ l, e.transition = t ∧ e.selection.SameAs s ∧ e.marking = m
  once : l.Pairwise fun a b => ¬ (a.transition = b.transition ∧ a.selection.SameAs b.selection)

/-- One entry of the list. -/
theorem entry_ok {e : Successor}
    (h : (c.net.fire c.limits.analysis c.marking t s).map (fun r => (⟨t, s, r.2⟩ : Successor)) = .ok e) :
    e.transition = t ∧ e.selection = s ∧ ∃ f, c.net.fire c.limits.analysis c.marking t s = .ok (f, e.marking) := by
  obtain ⟨r, hfire, rfl⟩ := exists_ok_of_map h
  exact ⟨rfl, rfl, r.1, hfire⟩

/-- The entries of one transition. -/
theorem successorsBy_ok (h : c.successorsBy t = .ok l) :
    (∀ e ∈ l, e.transition = t ∧
      ∃ f, c.net.fire c.limits.analysis c.marking e.transition e.selection = .ok (f, e.marking)) ∧
    (∀ s f m, c.net.fire c.limits.analysis c.marking t s = .ok (f, m) →
      ∃ e ∈ l, e.selection.SameAs s ∧ e.marking = m) ∧
    l.Pairwise fun a b => ¬ a.selection.SameAs b.selection := by
  obtain ⟨ss, hss, h⟩ := exists_ok_of_bind h
  have henum := Net.enumerates_admissibleSelections hss
  obtain ⟨hall, honly⟩ := mem_of_mapM_ok h
  refine ⟨fun e he => ?_, fun s f m hfire => ?_, ?_⟩
  · obtain ⟨s, -, hs⟩ := honly e he
    obtain ⟨ht, hsel, hfired⟩ := entry_ok hs
    rw [ht, hsel]
    exact ⟨rfl, hfired⟩
  · obtain ⟨s', hs', hsame⟩ := henum.complete s (Selection.check_ok_iff.1 (Net.fire_ok hfire).1)
    obtain ⟨e, he, hentry⟩ := hall s' hs'
    obtain ⟨-, hsel, f', hfire'⟩ := entry_ok hentry
    exact ⟨e, he, hsel ▸ hsame, Net.marking_eq_of_sameAs hfire' hfire hsame⟩
  · refine pairwise_of_mapM_ok h (henum.once.imp fun {s s'} hne a b ha hb => ?_)
    rw [(entry_ok ha).2.1, (entry_ok hb).2.1]
    exact hne

theorem listsFirings_successors (h : c.successors = .ok l) : c.ListsFirings l := by
  obtain ⟨ts, hts, h⟩ := exists_ok_of_bind h
  obtain ⟨ls, hls, h⟩ := exists_ok_of_bind h
  obtain rfl := Except.ok.inj h
  obtain ⟨hsorted, hmem⟩ := Net.enabledTransitions_ok hts
  obtain ⟨hall, honly⟩ := mem_of_mapM_ok hls
  refine ⟨fun e he => ?_, fun t s f m hfire => ?_, List.pairwise_flatten.2 ⟨fun l hl => ?_, ?_⟩⟩
  · obtain ⟨l, hl, he⟩ := List.mem_flatten.1 he
    obtain ⟨t, -, hby⟩ := honly l hl
    exact ((successorsBy_ok hby).1 e he).2
  · obtain ⟨-, take, hen, -⟩ := Net.fire_ok hfire
    obtain ⟨l, hl, hby⟩ := hall t ((hmem t).2 ⟨take, hen⟩)
    obtain ⟨hsound, hcomplete, -⟩ := successorsBy_ok hby
    obtain ⟨e, he, hsame, hm⟩ := hcomplete s f m hfire
    exact ⟨e, List.mem_flatten_of_mem hl he, (hsound e he).1, hsame, hm⟩
  · obtain ⟨t, -, hby⟩ := honly l hl
    exact (successorsBy_ok hby).2.2.imp fun hne hsame => hne hsame.2
  · -- Entries from different lists have different transitions.
    refine pairwise_of_mapM_ok hls (hsorted.imp fun {t u} hlt l l' hl hl' a ha b hb hsame => ?_)
    have hta := ((successorsBy_ok hl).1 a ha).1
    have hub := ((successorsBy_ok hl').1 b hb).1
    rw [hta, hub] at hsame
    exact Nat.ne_of_lt hlt hsame.1

/-- **Every firing that is possible is listed, once.**  Each entry is a firing that succeeds, with the marking it leads
to; each firing that succeeds has an entry of the same transition, the same places and the same marking; no two entries
have transition and places in common; and to ask for the list changes nothing. -/
theorem successors_exact (h : c.successors = .ok l) :
    c.ListsFirings l ∧ c.turn (.ask .successors) = (.finding (.successors l), c) := by
  refine ⟨listsFirings_successors h, ?_⟩
  unfold turn look
  rw [h]
  rfl

/-- From the start of `detour` three firings are possible, one for each choice of an OR-split with two outputs. -/
def detourFirings : List Successor :=
  [⟨0, .single 1, ⟨[0, 1, 0, 0, 0]⟩⟩, ⟨0, .single 2, ⟨[0, 0, 1, 0, 0]⟩⟩, ⟨0, .ofList [1, 2], ⟨[0, 1, 1, 0, 0]⟩⟩]

/-- To choose both outputs the other way round is not another firing. -/
theorem detour_successors : (launch detour 1 {}).successors = .ok detourFirings ∧
    (launch detour 1 {}).ListsFirings detourFirings ∧
    ∃ e ∈ detourFirings, e.selection.SameAs (.ofList [2, 1]) ∧ e.marking = ⟨[0, 1, 1, 0, 0]⟩ := by
  have hlist : (launch detour 1 {}).successors = .ok detourFirings := rfl
  obtain ⟨h, -⟩ := successors_exact hlist
  obtain ⟨e, he, -, hsame, hm⟩ := h.complete 0 (.ofList [2, 1]) _ ⟨[0, 1, 1, 0, 0]⟩ rfl
  exact ⟨hlist, h, e, he, hsame, hm⟩

end Case

end Workflow
