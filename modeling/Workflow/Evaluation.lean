/-!
# Evaluation — what has been found when nothing has failed

An evaluation that has an answer has had one at every step, and the evaluation of a list has had one for every member,
in the same order.
-/
namespace Workflow

variable {α β ε : Type}

theorem exists_ok_of_map {x : Except ε α} {f : α → β} {b : β} (h : x.map f = .ok b) : ∃ a, x = .ok a ∧ f a = b := by
  cases x with
  | error e => cases h
  | ok a => exact ⟨a, rfl, Except.ok.inj h⟩

theorem exists_ok_of_bind {x : Except ε α} {f : α → Except ε β} {b : β} (h : x >>= f = .ok b) :
    ∃ a, x = .ok a ∧ f a = .ok b := by
  cases x with
  | error e => cases h
  | ok a => exact ⟨a, rfl, h⟩

/-! ## All members of a list -/

section

variable {f : α → Except ε β}

theorem mapM_of_ok {g : α → β} : ∀ {l : List α}, (∀ a ∈ l, f a = .ok (g a)) → l.mapM f = .ok (l.map g)
  | [], _ => rfl
  | a :: l, h => by
    obtain ⟨ha, hl⟩ := List.forall_mem_cons.1 h
    rw [List.mapM_cons, ha, mapM_of_ok hl]
    rfl

theorem mapM_cons_ok {a : α} {l : List α} {r : List β} (h : (a :: l).mapM f = .ok r) :
    ∃ b bs, f a = .ok b ∧ l.mapM f = .ok bs ∧ r = b :: bs := by
  rw [List.mapM_cons] at h
  obtain ⟨b, hb, h⟩ := exists_ok_of_bind h
  obtain ⟨bs, hbs, h⟩ := exists_ok_of_bind h
  exact ⟨b, bs, hb, hbs, (Except.ok.inj h).symm⟩

/-- **Each member has an answer, and each answer a member.** -/
theorem mem_of_mapM_ok : ∀ {l : List α} {r : List β}, l.mapM f = .ok r →
    (∀ a ∈ l, ∃ b ∈ r, f a = .ok b) ∧ ∀ b ∈ r, ∃ a ∈ l, f a = .ok b
  | [], r, h => by
    cases h
    simp
  | a :: l, r, h => by
    obtain ⟨b, bs, ha, hl, rfl⟩ := mapM_cons_ok h
    obtain ⟨hall, honly⟩ := mem_of_mapM_ok hl
    constructor
    · refine List.forall_mem_cons.2 ⟨⟨b, List.mem_cons_self, ha⟩, fun a' ha' => ?_⟩
      obtain ⟨b', hb', hf⟩ := hall a' ha'
      exact ⟨b', List.mem_cons_of_mem _ hb', hf⟩
    · refine List.forall_mem_cons.2 ⟨⟨a, List.mem_cons_self, ha⟩, fun b' hb' => ?_⟩
      obtain ⟨a', ha', hf⟩ := honly b' hb'
      exact ⟨a', List.mem_cons_of_mem _ ha', hf⟩

/-- What has failed, has failed at a member. -/
theorem exists_error_of_mapM : ∀ {l : List α} {e : ε}, l.mapM f = .error e → ∃ a ∈ l, f a = .error e
  | [], _, h => by cases h
  | a :: l, e, h => by
    rw [List.mapM_cons] at h
    cases ha : f a with
    | error e' =>
      rw [ha] at h
      cases h
      exact ⟨a, List.mem_cons_self, ha⟩
    | ok b =>
      rw [ha] at h
      cases hl : l.mapM f with
      | error e' =>
        rw [hl] at h
        cases h
        obtain ⟨a', ha', hf⟩ := exists_error_of_mapM hl
        exact ⟨a', List.mem_cons_of_mem _ ha', hf⟩
      | ok bs =>
        rw [hl] at h
        cases h

/-- **What holds between the answers of any two members holds between the answers.** -/
theorem pairwise_of_mapM_ok {R : β → β → Prop} : ∀ {l : List α} {r : List β}, l.mapM f = .ok r →
    l.Pairwise (fun a a' => ∀ b b', f a = .ok b → f a' = .ok b' → R b b') → r.Pairwise R
  | [], r, h, _ => by
    cases h
    exact .nil
  | a :: l, r, h, hl => by
    obtain ⟨b, bs, hb, hbs, rfl⟩ := mapM_cons_ok h
    obtain ⟨hfirst, hrest⟩ := List.pairwise_cons.1 hl
    refine .cons (fun b' hb' => ?_) (pairwise_of_mapM_ok hbs hrest)
    obtain ⟨a', ha', hf⟩ := (mem_of_mapM_ok hbs).2 b' hb'
    exact hfirst a' ha' b b' hb hf

end

end Workflow
