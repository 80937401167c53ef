import Mathlib.Data.List.Perm.Basic
import Workflow.Proofs.RoundTrip
/-!
# NormalForm — what of a saved marking counts

A marking is saved without its empty places.  Read back, a map of counts gives a marking if it names places of the net
and nothing else, and what is saved again is that map without the counts that are zero (`toTokenMap_of_ofTokenMap`).  So
the saved markings are the maps without zeros, one for each marking (`tokenMap_normalForm`).
-/
namespace Workflow

/-! ## Maps of counts -/

namespace TokenMap

variable {d d' : TokenMap} {k : String} {n : UInt32}

/-- The map without the counts that are zero. -/
def withoutZeros (d : TokenMap) : TokenMap where
  entries := d.entries.filter fun e => e.2 ≠ 0
  sorted := d.sorted.sublist (List.filter_sublist.map Prod.fst)

theorem lookup_eq_some_iff : d.entries.lookup k = some n ↔ (k, n) ∈ d.entries :=
  lookup_eq_some_iff_mem d.nodup_names

/-- **A map is what one finds in it.** -/
theorem ext_lookup (h : ∀ k, d.entries.lookup k = d'.entries.lookup k) : d = d' := by
  have hmem (e : String × UInt32) : e ∈ d.entries ↔ e ∈ d'.entries := by
    rw [← lookup_eq_some_iff, ← lookup_eq_some_iff, h]
  have hnodup (d : TokenMap) : d.entries.Nodup := d.nodup_names.of_map Prod.fst
  have hperm : d.entries.Perm d'.entries := (List.perm_ext_iff_of_nodup (hnodup d) (hnodup d')).2 hmem
  have heq : d.entries = d'.entries :=
    hperm.eq_of_pairwise (fun a b _ _ hab hba => absurd (String.lt_trans hab hba) (String.lt_irrefl a.1))
      (List.pairwise_map.1 d.sorted) (List.pairwise_map.1 d'.sorted)
  obtain ⟨entries, sorted⟩ := d
  obtain ⟨entries', sorted'⟩ := d'
  cases heq
  rfl

theorem lookup_withoutZeros (d : TokenMap) (k : String) :
    d.withoutZeros.entries.lookup k = (d.entries.lookup k).filter fun n => n ≠ 0 := by
  refine Option.ext fun n => ?_
  rw [lookup_eq_some_iff, Option.filter_eq_some_iff, lookup_eq_some_iff]
  exact List.mem_filter

end TokenMap

/-! ## Reading and saving again -/

namespace Marking

variable {net : Net} {m m' : Marking} {d d' : TokenMap}

theorem exists_place_of_setNamed : ∀ {es : List (String × UInt32)} {m m' : Marking}, setNamed net es m = .ok m' →
    ∀ e ∈ es, ∃ p, net.placeId? e.1 = some p
  | [], _, _, _ => by simp
  | (name, n) :: es, m, m', h => by
    unfold setNamed at h
    split at h
    · cases h
    · rename_i p hp
      exact List.forall_mem_cons.2 ⟨⟨p, hp⟩, exists_place_of_setNamed h⟩

theorem exists_placeId?_iff (name : String) : (∃ p, net.placeId? name = some p) ↔ ∃ p ∈ net.places, p.name = name := by
  rw [← Option.isSome_iff_exists]
  exact Graph.isSome_placeId?

/-- **A map is read if it names places of the net and nothing else**; the marking has the counts of the map. -/
theorem ofTokenMap_ok (h : ∀ e ∈ d.entries, ∃ p ∈ net.places, p.name = e.1) : ∃ m, ofTokenMap net d = .ok m ∧
    ∀ p < net.places.length, m.count p = (d.entries.lookup (net.placeName p)).elim 0 UInt32.toNat := by
  have hknown : ∀ e ∈ d.entries, ∃ p, net.placeId? e.1 = some p := fun e he => (exists_placeId?_iff e.1).2 (h e he)
  obtain ⟨m, hm, hcounts⟩ := setNamed_counts d.entries (empty net) List.length_replicate hknown
  refine ⟨m, hm, fun p hp => ?_⟩
  rw [hcounts p hp, TokenMap.lookup_reverse d.nodup_names, count_empty]

theorem ofTokenMap_ok_iff : (∃ m, ofTokenMap net d = .ok m) ↔ ∀ e ∈ d.entries, ∃ p ∈ net.places, p.name = e.1 := by
  constructor
  · rintro ⟨m, hm⟩ e he
    exact (exists_placeId?_iff e.1).1 (exists_place_of_setNamed hm e he)
  · intro h
    obtain ⟨m, hm, -⟩ := ofTokenMap_ok h
    exact ⟨m, hm⟩

/-- A name that is no place's is not saved. -/
theorem lookup_toTokenMap_of_unknown {name : String} (hsize : m.size = net.places.length)
    (h : ¬ ∃ p ∈ net.places, p.name = name) : (m.toTokenMap net).entries.lookup name = none := by
  refine Option.eq_none_iff_forall_ne_some.2 fun n hn => h ?_
  obtain ⟨p, hmarked, hname⟩ := exists_place_of_mem_toTokenMap (TokenMap.lookup_eq_some_iff.1 hn)
  have hp : p < net.places.length := hsize ▸ lt_size_of_isMarked hmarked
  exact ⟨net.places[p], List.getElem_mem hp, (Graph.placeName_eq hp).symm.trans hname⟩

/-- **Saving what has been read** gives the map that was read, without its zeros. -/
theorem toTokenMap_of_ofTokenMap (h : ofTokenMap net d = .ok m) : m.toTokenMap net = d.withoutZeros := by
  have hknown := ofTokenMap_ok_iff.1 ⟨m, h⟩
  have hsize := size_ofTokenMap h
  obtain ⟨m', hm', hcounts⟩ := ofTokenMap_ok hknown
  obtain rfl : m = m' := Except.ok.inj (h.symm.trans hm')
  refine TokenMap.ext_lookup fun k => ?_
  rw [TokenMap.lookup_withoutZeros]
  by_cases hk : ∃ p ∈ net.places, p.name = k
  · obtain ⟨p, hp⟩ := (exists_placeId?_iff k).2 hk
    have hlt := Graph.placeId?_lt hp
    have hcount := hcounts p hlt
    obtain rfl := Graph.placeName_of_placeId? hp
    rw [lookup_toTokenMap hsize hlt]
    unfold isMarked
    rw [hcount]
    cases d.entries.lookup (net.placeName p) with
    | none => rfl
    | some n =>
      have heq : n.toNat = (0 : UInt32).toNat ↔ n = 0 := UInt32.toNat_inj
      have hzero : 0 < n.toNat ↔ n ≠ 0 := Nat.pos_iff_ne_zero.trans (not_congr heq)
      simp only [Option.elim_some, decide_eq_true_eq, hzero, UInt32.ofNat_toNat, Option.filter_some]
  · rw [lookup_toTokenMap_of_unknown hsize hk]
    cases hd : d.entries.lookup k with
    | none => rfl
    | some n => exact absurd (hknown _ (TokenMap.lookup_eq_some_iff.1 hd)) hk

/-- **Saved markings are the maps without zeros.**  A marking of the net is read back as it was.  A map is read exactly if
all its names are places of the net, those with the count zero too; saved again it has lost its zeros and nothing else.
So two maps that are read give the same marking if, and only if, they agree but for zeros. -/
theorem tokenMap_normalForm (net : Net) :
    (∀ m : Marking, m.size = net.places.length → ofTokenMap net (m.toTokenMap net) = .ok m) ∧
    (∀ d : TokenMap, (∃ m, ofTokenMap net d = .ok m) ↔ ∀ e ∈ d.entries, ∃ p ∈ net.places, p.name = e.1) ∧
    (∀ d m, ofTokenMap net d = .ok m → m.size = net.places.length ∧ m.toTokenMap net = d.withoutZeros) ∧
    ∀ d d' m m', ofTokenMap net d = .ok m → ofTokenMap net d' = .ok m' →
      (m = m' ↔ d.withoutZeros = d'.withoutZeros) := by
  refine ⟨fun m hsize => ofTokenMap_toTokenMap hsize, fun d => ofTokenMap_ok_iff,
    fun d m h => ⟨size_ofTokenMap h, toTokenMap_of_ofTokenMap h⟩, fun d d' m m' h h' => ?_⟩
  rw [← toTokenMap_of_ofTokenMap h, ← toTokenMap_of_ofTokenMap h']
  constructor
  · rintro rfl
    rfl
  · intro heq
    have hback := ofTokenMap_toTokenMap (size_ofTokenMap h)
    rw [heq, ofTokenMap_toTokenMap (size_ofTokenMap h')] at hback
    exact (Except.ok.inj hback).symm

/-- Three tokens on `x` and one on `v`, saved with a zero for `i`, or for `o`. -/
theorem detour_normalForm :
    ofTokenMap Case.detour (TokenMap.ofList [("x", 3), ("i", 0), ("v", 1)]) = .ok ⟨[0, 3, 1, 0, 0]⟩ ∧
    (Marking.mk [0, 3, 1, 0, 0]).toTokenMap Case.detour = ⟨[("v", 1), ("x", 3)], by decide⟩ ∧
    ofTokenMap Case.detour ⟨[("v", 1), ("x", 3)], by decide⟩ = .ok ⟨[0, 3, 1, 0, 0]⟩ ∧
    (TokenMap.ofList [("x", 3), ("i", 0), ("v", 1)]).withoutZeros =
      (TokenMap.ofList [("v", 1), ("x", 3), ("o", 0)]).withoutZeros ∧
    ¬ ∃ m, ofTokenMap Case.detour (TokenMap.ofList [("w", 0)]) = .ok m := by
  obtain ⟨hback, hread, hsaved, hsame⟩ := tokenMap_normalForm Case.detour
  have h : ofTokenMap Case.detour (TokenMap.ofList [("x", 3), ("i", 0), ("v", 1)]) = .ok ⟨[0, 3, 1, 0, 0]⟩ := rfl
  have h' : ofTokenMap Case.detour (TokenMap.ofList [("v", 1), ("x", 3), ("o", 0)]) = .ok ⟨[0, 3, 1, 0, 0]⟩ := rfl
  have hmap : (Marking.mk [0, 3, 1, 0, 0]).toTokenMap Case.detour = ⟨[("v", 1), ("x", 3)], by decide⟩ :=
    (hsaved _ _ h).2
  refine ⟨h, hmap, hmap ▸ hback _ rfl, (hsame _ _ _ _ h h').1 rfl, fun hw => ?_⟩
  obtain ⟨p, hp, hname⟩ := (hread _).1 hw ("w", 0) List.mem_cons_self
  revert p
  decide

end Marking

end Workflow
