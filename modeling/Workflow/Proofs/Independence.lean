import Workflow.Proofs.Balance
import Workflow.Proofs.Locality
import Workflow.Proofs.RoundTrip
/-!
# Independence — firings that may change places

Two transitions are independent if neither touches what the other takes from, and neither empties what the other puts
on.  They may put on the same places, and empty the same ones.  The firing of the one then changes nothing that the
other decides by; all that it can use up is room on a place that gets a token from both, and of that both orders need
the same (`firesThen_iff`).  So both orders are possible or none is, and they lead to the same marking
(`firesThen_comm`).  What is recorded differs in one thing only: where both empty a place, it is the first that finds
tokens there.
-/
namespace Workflow

/-! ## Moves that do not meet -/

/-- **Two moves change places** if neither takes where the other takes, puts or clears, and neither puts where the
other clears. -/
theorem Counts.move_comm {x : Counts} {take put clear take' put' clear' : List Nat}
    (htake : ∀ p ∈ take, p ∉ take' ∧ p ∉ put' ∧ p ∉ clear') (htake' : ∀ p ∈ take', p ∉ take ∧ p ∉ put ∧ p ∉ clear)
    (hput : ∀ p ∈ put, p ∉ clear') (hput' : ∀ p ∈ put', p ∉ clear) :
    (x.move take put clear).move take' put' clear' = (x.move take' put' clear').move take put clear := by
  funext p
  unfold Counts.move
  by_cases hp : p ∈ take
  · obtain ⟨h1, h2, h3⟩ := htake p hp
    by_cases hc : p ∈ clear <;> simp [hp, h1, h2, h3, hc]
  by_cases hp' : p ∈ take'
  · obtain ⟨h1, h2, h3⟩ := htake' p hp'
    by_cases hc : p ∈ clear' <;> simp [hp', h1, h2, h3, hc]
  -- From here on nothing is taken, so the order of the two matters only where the one clears and the other puts.
  by_cases hc : p ∈ clear
  · have hq' : p ∉ put' := fun h => hput' p h hc
    simp [hp', hc, hq']
  by_cases hc' : p ∈ clear'
  · have hq : p ∉ put := fun h => hput p h hc'
    simp [hp, hc, hc', hq]
  · simp [hp, hp', hc, hc', Nat.add_right_comm]

/-! ## What a record says of the tokens that were moved -/

/-- A token is taken from a place, or put on one. -/
def Change.isMove : Change → Bool
  | .consume _ _ | .produce _ _ => true
  | _ => false

/-- What a firing has taken and put, in order, without what it has emptied. -/
def Firing.moved (f : Firing) : List Change := f.changes.filter Change.isMove

theorem Firing.moved_ofParts (t : TransitionId) (take put : List PlaceId) (removed : List (PlaceId × Nat)) :
    (ofParts t take put removed).moved = take.map (Change.consume · t) ++ put.map (Change.produce · t) := by
  have htake : (take.map (Change.consume · t)).filter Change.isMove = take.map (Change.consume · t) :=
    List.filter_eq_self.2 (List.forall_mem_map.2 fun _ _ => rfl)
  have hput : (put.map (Change.produce · t)).filter Change.isMove = put.map (Change.produce · t) :=
    List.filter_eq_self.2 (List.forall_mem_map.2 fun _ _ => rfl)
  have hremoved : (removed.map fun e => Change.cancel e.1 t e.2).filter Change.isMove = [] :=
    List.filter_eq_nil_iff.2 (List.forall_mem_map.2 fun _ _ => Bool.false_ne_true)
  unfold moved ofParts
  rw [List.filter_append, List.filter_append, htake, hput, hremoved, List.append_nil]

namespace Net

/-! ## Independent transitions -/

/-- To fire `u` leaves alone what `v` takes from, and does not empty what `v` puts on. -/
structure Spares (net : Net) (u v : TransitionId) : Prop where
  inputs : ∀ p ∈ net.preset v, p ∉ net.preset u ∧ p ∉ net.postset u ∧ p ∉ net.cancelledPlaces u
  outputs : ∀ p ∈ net.postset v, p ∉ net.cancelledPlaces u

instance (net : Net) (u v : TransitionId) : Decidable (net.Spares u v) :=
  decidable_of_iff ((∀ p ∈ net.preset v, p ∉ net.preset u ∧ p ∉ net.postset u ∧ p ∉ net.cancelledPlaces u) ∧
    ∀ p ∈ net.postset v, p ∉ net.cancelledPlaces u) ⟨fun h => ⟨h.1, h.2⟩, fun h => ⟨h.inputs, h.outputs⟩⟩

def Independent (net : Net) (u v : TransitionId) : Prop := net.Spares u v ∧ net.Spares v u

instance (net : Net) (u v : TransitionId) : Decidable (net.Independent u v) := inferInstanceAs (Decidable (_ ∧ _))

/-- In `m`, transition `u` fires and then `v`, with these records, and that leads to `m'`. -/
def FiresThen (net : Net) (limits : AnalysisLimits) (m : Marking) (u : TransitionId) (su : Selection)
    (v : TransitionId) (sv : Selection) (f g : Firing) (m' : Marking) : Prop :=
  ∃ m₁, net.fire limits m u su = .ok (f, m₁) ∧ net.fire limits m₁ v sv = .ok (g, m')

variable {net : Net} {limits : AnalysisLimits} {m m₁ m₂ m' : Marking} {u v : TransitionId} {su sv : Selection}
  {f g f' g' : Firing} {take : List PlaceId} {p : PlaceId}

theorem Independent.symm (h : net.Independent u v) : net.Independent v u := And.symm h

/-! ## What the one firing leaves for the other -/

/-- **The input places of a transition that is spared hold what they held.** -/
theorem Spares.count_input (h : net.Spares u v) (hfire : net.fire limits m u su = .ok (f, m₁)) (hp : p ∈ net.preset v) :
    m₁.count p = m.count p := by
  obtain ⟨hcheck, take, hen, -, hcount⟩ := fire_ok hfire
  obtain ⟨htake, hput, hclear⟩ := h.inputs p hp
  have hnotTaken : p ∉ take := fun hmem => htake ((enablement_take hen).2.1 p hmem).1
  have hnotPut : p ∉ su.places := fun hmem => hput ((Selection.check_ok_iff.1 hcheck).outputs p hmem)
  simp [hcount, Counts.move, hnotTaken, hnotPut, hclear]

/-- A transition that does not wait is decided by its input places, so it is decided as before. -/
theorem Spares.enablement_eq (h : net.Spares u v) (hfire : net.fire limits m u su = .ok (f, m₁))
    (hv : (net.transitions[v]?).map Transition.join ≠ some .or) :
    net.enablement limits m₁ v = net.enablement limits m v := by
  refine enablement_congr (fun p hp => ?_) (orJoinVerdict_eq_of_ne_or hv)
  unfold Marking.isMarked
  rw [h.count_input hfire hp]

/-- Its output places hold what they held, and what they were given. -/
theorem Independent.count_output (h : net.Independent u v) (hfire : net.fire limits m u su = .ok (f, m₁))
    (hp : p ∈ net.postset v) : m₁.count p = m.count p + if p ∈ su.places then 1 else 0 := by
  obtain ⟨-, take, hen, -, hcount⟩ := fire_ok hfire
  have hnotTaken : p ∉ take := fun hmem => (h.2.inputs p ((enablement_take hen).2.1 p hmem).1).2.1 hp
  simp [hcount, Counts.move, hnotTaken, h.1.outputs p hp]

/-- **What the first firing can use up is room**, on places that get a token from both. -/
theorem Independent.fireable_iff (h : net.Independent u v) (hfire : net.fire limits m u su = .ok (f, m₁))
    (hv : (net.transitions[v]?).map Transition.join ≠ some .or) :
    net.Fireable limits m₁ v sv take ↔ net.Fireable limits m v sv take ∧
      ∀ p ∈ su.places, p ∈ sv.places → m.count p + 1 ≠ UInt32.size - 1 := by
  obtain ⟨hcheck, -, -, hsize, -⟩ := fire_ok hfire
  have hen := h.1.enablement_eq hfire hv
  have hoverlap (hmem : ∀ p ∈ take, p ∈ net.preset v) (p : PlaceId) (hp : p ∈ su.places) : p ∉ take := fun htaken =>
    (h.1.inputs p (hmem p htaken)).2.1 ((Selection.check_ok_iff.1 hcheck).outputs p hp)
  constructor
  · intro hfireable
    have hmem : ∀ p ∈ take, p ∈ net.preset v := fun p hp => ((enablement_take hfireable.enabled).2.1 p hp).1
    refine ⟨⟨hfireable.known, hfireable.suits, hen ▸ hfireable.enabled, hsize ▸ hfireable.counted, fun p hp => ?_⟩,
      fun p hpu hpv => ?_⟩
    · have hroom := hfireable.room p hp
      have hlt := m₁.count_lt_size p
      rw [h.count_output hfire (hfireable.suits.outputs p hp)] at hroom hlt
      by_cases hpu : p ∈ su.places
      · simp only [hpu, hoverlap hmem p hpu, if_true, if_false] at hlt ⊢
        omega
      · simpa only [hpu, if_false, Nat.add_zero] using hroom
    · have hroom := hfireable.room p hpv
      rw [h.count_output hfire (hfireable.suits.outputs p hpv)] at hroom
      simpa only [hpu, hoverlap hmem p hpu, if_true, if_false, Nat.sub_zero] using hroom
  · rintro ⟨hfireable, hboth⟩
    have hmem : ∀ p ∈ take, p ∈ net.preset v := fun p hp => ((enablement_take hfireable.enabled).2.1 p hp).1
    refine ⟨hfireable.known, hfireable.suits, hen.symm ▸ hfireable.enabled, hsize.symm ▸ hfireable.counted,
      fun p hp => ?_⟩
    rw [h.count_output hfire (hfireable.suits.outputs p hp)]
    by_cases hpu : p ∈ su.places
    · simpa only [hpu, hoverlap hmem p hpu, if_true, if_false, Nat.sub_zero] using hboth p hpu hp
    · simpa only [hpu, if_false, Nat.add_zero] using hfireable.room p hp

/-- **One can fire after the other just when each can fire alone, and there is room for both.** -/
theorem firesThen_iff (h : net.Independent u v) (hv : (net.transitions[v]?).map Transition.join ≠ some .or) :
    (∃ f g m', net.FiresThen limits m u su v sv f g m') ↔
      (∃ take, net.Fireable limits m u su take) ∧ (∃ take, net.Fireable limits m v sv take) ∧
        ∀ p ∈ su.places, p ∈ sv.places → m.count p + 1 ≠ UInt32.size - 1 := by
  constructor
  · rintro ⟨f, g, m', m₁, hfire, hfire'⟩
    obtain ⟨take, hfireable⟩ := fireable_of_fire hfire'
    obtain ⟨halone, hboth⟩ := (h.fireable_iff hfire hv).1 hfireable
    exact ⟨fireable_of_fire hfire, ⟨take, halone⟩, hboth⟩
  · rintro ⟨⟨_, hfireable⟩, ⟨take, halone⟩, hboth⟩
    obtain ⟨⟨f, m₁⟩, hfire⟩ := hfireable.exists_fire
    obtain ⟨⟨g, m'⟩, hfire'⟩ := ((h.fireable_iff hfire hv).2 ⟨halone, hboth⟩).exists_fire
    exact ⟨f, g, m', m₁, hfire, hfire'⟩

/-! ## Both orders -/

theorem FiresThen.suits (h : net.FiresThen limits m u su v sv f g m') : su.Suits net u ∧ sv.Suits net v := by
  obtain ⟨m₁, hfire, hfire'⟩ := h
  exact ⟨Selection.check_ok_iff.1 (fire_ok hfire).1, Selection.check_ok_iff.1 (fire_ok hfire').1⟩

theorem moved_of_fire {t : TransitionId} {s : Selection} (hfire : net.fire limits m t s = .ok (f, m'))
    (hen : net.enablement limits m t = .ok (.enabled take)) :
    f.moved = take.map (Change.consume · t) ++ s.places.map (Change.produce · t) := by
  obtain ⟨-, take', _, _, removed, hen', -, -, -, rfl⟩ := fire_parts hfire
  cases hen.symm.trans hen'
  exact Firing.moved_ofParts t take s.places removed

/-- **What two firings do, one after the other**, told by what each of them takes in the first marking. -/
theorem FiresThen.parts (h : net.FiresThen limits m u su v sv f g m') (hind : net.Independent u v)
    (hv : (net.transitions[v]?).map Transition.join ≠ some .or) :
    ∃ taken taken', net.enablement limits m u = .ok (.enabled taken) ∧
      net.enablement limits m v = .ok (.enabled taken') ∧ m'.size = m.size ∧
      m'.count = (Counts.move taken su.places (net.cancelledPlaces u) m.count).move taken' sv.places
        (net.cancelledPlaces v) ∧
      f.moved = taken.map (Change.consume · u) ++ su.places.map (Change.produce · u) ∧
      g.moved = taken'.map (Change.consume · v) ++ sv.places.map (Change.produce · v) ∧
      m'.total + taken.length + taken'.length + f.removed + g.removed =
        m.total + su.places.length + sv.places.length := by
  obtain ⟨m₁, hfire, hfire'⟩ := h
  obtain ⟨-, taken, hen, hsize, hcount⟩ := fire_ok hfire
  obtain ⟨-, taken', hen', hsize', hcount'⟩ := fire_ok hfire'
  have htotal := (balanced_of_fire hfire hen).total
  have htotal' := (balanced_of_fire hfire' hen').total
  refine ⟨taken, taken', hen, (hind.1.enablement_eq hfire hv).symm.trans hen', hsize'.trans hsize,
    hcount ▸ hcount', moved_of_fire hfire hen, moved_of_fire hfire' hen', ?_⟩
  omega

/-- What independent transitions take, put and clear are moves that change places. -/
theorem Independent.move_comm {taken taken' : List PlaceId} (h : net.Independent u v)
    (hinu : ∀ p ∈ taken, p ∈ net.preset u) (hinv : ∀ p ∈ taken', p ∈ net.preset v)
    (houtu : ∀ p ∈ su.places, p ∈ net.postset u) (houtv : ∀ p ∈ sv.places, p ∈ net.postset v) (x : Counts) :
    (x.move taken su.places (net.cancelledPlaces u)).move taken' sv.places (net.cancelledPlaces v) =
      (x.move taken' sv.places (net.cancelledPlaces v)).move taken su.places (net.cancelledPlaces u) := by
  apply Counts.move_comm
  · intro p hp
    obtain ⟨hin, hout, hclear⟩ := h.2.inputs p (hinu p hp)
    exact ⟨fun hp' => hin (hinv p hp'), fun hp' => hout (houtv p hp'), hclear⟩
  · intro p hp
    obtain ⟨hin, hout, hclear⟩ := h.1.inputs p (hinv p hp)
    exact ⟨fun hp' => hin (hinu p hp'), fun hp' => hout (houtu p hp'), hclear⟩
  · exact fun p hp => h.2.outputs p (houtu p hp)
  · exact fun p hp => h.1.outputs p (houtv p hp)

/-- **Independent firings may change places.**  If neither of two transitions waits, and neither touches what the other
takes from or empties what it puts on, then the one can fire and the other after it just when the other can fire and the
one after it.  Both orders lead to the same marking; each transition takes and puts the same in both; and what is
emptied is as many tokens in all. -/
theorem firesThen_comm (hu : (net.transitions[u]?).map Transition.join ≠ some .or)
    (hv : (net.transitions[v]?).map Transition.join ≠ some .or) (h : net.Independent u v) :
    ((∃ f g m', net.FiresThen limits m u su v sv f g m') ↔ ∃ g f m', net.FiresThen limits m v sv u su g f m') ∧
    ∀ f g m₁ f' g' m₂, net.FiresThen limits m u su v sv f g m₁ → net.FiresThen limits m v sv u su g' f' m₂ →
      m₁ = m₂ ∧ f.moved = f'.moved ∧ g.moved = g'.moved ∧ f.removed + g.removed = f'.removed + g'.removed := by
  constructor
  · rw [firesThen_iff h hv, firesThen_iff h.symm hu]
    constructor
    · rintro ⟨hfireable, hfireable', hboth⟩
      exact ⟨hfireable', hfireable, fun p hpv hpu => hboth p hpu hpv⟩
    · rintro ⟨hfireable, hfireable', hboth⟩
      exact ⟨hfireable', hfireable, fun p hpu hpv => hboth p hpv hpu⟩
  · intro f g m₁ f' g' m₂ hfirst hsecond
    obtain ⟨houtu, houtv⟩ := hfirst.suits
    obtain ⟨taken, taken', hen, hen', hsize₁, hcount₁, hf, hg, htotal₁⟩ := hfirst.parts h hv
    obtain ⟨again', again, hagain', hagain, hsize₂, hcount₂, hg', hf', htotal₂⟩ := hsecond.parts h.symm hu
    -- Both transitions are decided in `m` itself, so they take the same in both orders.
    cases hen.symm.trans hagain
    cases hen'.symm.trans hagain'
    have hinu : ∀ p ∈ taken, p ∈ net.preset u := fun p hp => ((enablement_take hen).2.1 p hp).1
    have hinv : ∀ p ∈ taken', p ∈ net.preset v := fun p hp => ((enablement_take hen').2.1 p hp).1
    have hsame : m₁.count = m₂.count := by
      rw [hcount₁, hcount₂]
      exact h.move_comm hinu hinv houtu.outputs houtv.outputs m.count
    obtain rfl : m₁ = m₂ := Marking.ext_count (hsize₁.trans hsize₂.symm) fun p _ => congrFun hsame p
    refine ⟨rfl, hf.trans hf'.symm, hg.trans hg'.symm, ?_⟩
    omega

/-- `u` and `v` both put on `o`, and both empty `z`. -/
def rivals : Net where
  places := [⟨"i", .source⟩, ⟨"x", .internal⟩, ⟨"y", .internal⟩, ⟨"z", .internal⟩, ⟨"o", .sink⟩]
  transitions := [⟨"a", .xor, .and⟩, ⟨"u", .xor, .and⟩, ⟨"v", .and, .xor⟩, ⟨"w", .xor, .and⟩]
  arcs := [⟨0, 0, .input⟩, ⟨1, 0, .output⟩, ⟨2, 0, .output⟩, ⟨3, 0, .output⟩, ⟨1, 1, .input⟩, ⟨4, 1, .output⟩,
    ⟨2, 2, .input⟩, ⟨4, 2, .output⟩, ⟨3, 3, .input⟩, ⟨4, 3, .output⟩]
  source := 0
  sink := 4
  cancellations := [⟨1, .place 3⟩, ⟨2, .place 3⟩]

/-- Whoever of the two comes first finds the tokens on `z`.  If there is room on `o` for one of them only, then in
neither order both can fire. -/
theorem rivals_commute :
    rivals.FiresThen {} ⟨[0, 1, 1, 3, 4294967293]⟩ 1 (.single 4) 2 (.single 4)
      ⟨1, [.consume 1 1, .produce 4 1, .cancel 3 1 3]⟩ ⟨2, [.consume 2 2, .produce 4 2]⟩
      ⟨[0, 0, 0, 0, 4294967295]⟩ ∧
    (∃ g f m', rivals.FiresThen {} ⟨[0, 1, 1, 3, 4294967293]⟩ 2 (.single 4) 1 (.single 4) g f m' ∧
      m' = ⟨[0, 0, 0, 0, 4294967295]⟩ ∧ f.moved = [.consume 1 1, .produce 4 1] ∧ f.removed + g.removed = 3) ∧
    (∃ r, rivals.fire {} ⟨[0, 1, 1, 3, 4294967294]⟩ 1 (.single 4) = .ok r) ∧
    (∃ r, rivals.fire {} ⟨[0, 1, 1, 3, 4294967294]⟩ 2 (.single 4) = .ok r) ∧
    (¬ ∃ f g m', rivals.FiresThen {} ⟨[0, 1, 1, 3, 4294967294]⟩ 1 (.single 4) 2 (.single 4) f g m') ∧
    ¬ ∃ g f m', rivals.FiresThen {} ⟨[0, 1, 1, 3, 4294967294]⟩ 2 (.single 4) 1 (.single 4) g f m' := by
  have hind : rivals.Independent 1 2 := by decide
  have hu : (rivals.transitions[1]?).map Transition.join ≠ some .or := by decide
  have hv : (rivals.transitions[2]?).map Transition.join ≠ some .or := by decide
  have hfirst : rivals.FiresThen {} ⟨[0, 1, 1, 3, 4294967293]⟩ 1 (.single 4) 2 (.single 4)
      ⟨1, [.consume 1 1, .produce 4 1, .cancel 3 1 3]⟩ ⟨2, [.consume 2 2, .produce 4 2]⟩
      ⟨[0, 0, 0, 0, 4294967295]⟩ := ⟨_, rfl, rfl⟩
  have hnot : ¬ ∃ f g m', rivals.FiresThen {} ⟨[0, 1, 1, 3, 4294967294]⟩ 1 (.single 4) 2 (.single 4) f g m' := by
    rintro ⟨f, g, m', m₁, hfire, hfire'⟩
    cases hfire
    cases hfire'
  obtain ⟨g, f, m', hsecond⟩ := (firesThen_comm hu hv hind).1.1 ⟨_, _, _, hfirst⟩
  obtain ⟨rfl, hf, -, hremoved⟩ := (firesThen_comm hu hv hind).2 _ _ _ _ _ _ hfirst hsecond
  refine ⟨hfirst, ⟨g, f, _, hsecond, rfl, hf.symm, hremoved.symm⟩, ⟨_, rfl⟩, ⟨_, rfl⟩, hnot, fun h => ?_⟩
  exact hnot ((firesThen_comm hu hv hind).1.2 h)

end Net

end Workflow
