import Workflow.Net.Names
import Workflow.Proofs.Lifecycle
/-!
# RoundTrip — a marking comes back as it was saved

A saved marking knows its places by name only.  Names of places are never shared and each name is saved with one
count, so reading a saved marking back over the same net gives every place the count it had (`ofTokenMap_toTokenMap`).
-/
namespace Workflow

/-! ## Looking up counts by name -/

namespace TokenMap

variable {k name : String} {n : UInt32} {l es : List (String × UInt32)}

theorem lookup_cons (k : String) (e : String × UInt32) (es : List (String × UInt32)) :
    (e :: es).lookup k = if k = e.1 then some e.2 else es.lookup k := by
  obtain ⟨name, n⟩ := e
  rw [List.lookup_cons]
  by_cases h : k = name
  · rw [if_pos h, beq_iff_eq.2 h]
  · rw [if_neg h, beq_eq_false_iff_ne.2 h]

theorem lookup_put : ∀ es : List (String × UInt32),
    (put name n es).lookup k = if k = name then some n else es.lookup k
  | [] => lookup_cons k (name, n) []
  | e :: es => by
    unfold put
    split
    · exact lookup_cons k (name, n) (e :: es)
    · split
      · rename_i heq
        rw [lookup_cons, lookup_cons, ← heq]
        by_cases h : k = name
        · rw [if_pos h, if_pos h]
        · rw [if_neg h, if_neg h, if_neg h]
      · rename_i hne
        rw [lookup_cons, lookup_cons, lookup_put es]
        by_cases h : k = name
        · have hke : k ≠ e.1 := fun he => hne (h.symm.trans he)
          rw [if_neg hke, if_pos h, if_pos h]
        · rw [if_neg h, if_neg h]

/-- A map made of a list holds the last count that the list has for a name. -/
theorem lookup_ofList (l : List (String × UInt32)) (k : String) :
    (ofList l).entries.lookup k = l.reverse.lookup k := by
  have hfold : ∀ (l : List (String × UInt32)) (d : TokenMap),
      (l.foldl (fun d e => d.insert e.1 e.2) d).entries.lookup k = (l.reverse.lookup k).or (d.entries.lookup k) := by
    intro l
    induction l with
    | nil => exact fun d => (Option.none_or).symm
    | cons e l ih =>
      intro d
      have hinsert : (d.insert e.1 e.2).entries.lookup k = if k = e.1 then some e.2 else d.entries.lookup k :=
        lookup_put d.entries
      rw [List.foldl_cons, ih, hinsert, List.reverse_cons, List.lookup_append, lookup_cons, Option.or_assoc]
      by_cases h : k = e.1
      · rw [if_pos h, if_pos h, Option.some_or]
      · rw [if_neg h, if_neg h, List.lookup_nil, Option.none_or]
  rw [ofList, hfold l {}]
  exact Option.or_none

/-- Where no name is repeated, looking a name up finds its only entry. -/
theorem lookup_eq_some_iff_mem : ∀ {l : List (String × UInt32)}, (l.map Prod.fst).Nodup →
    (l.lookup k = some n ↔ (k, n) ∈ l)
  | [], _ => by simp
  | e :: l, h => by
    obtain ⟨hfst, hl⟩ := List.nodup_cons.1 h
    rw [lookup_cons, List.mem_cons]
    by_cases hk : k = e.1
    · subst hk
      have hnot : (e.1, n) ∉ l := fun hmem => hfst (List.mem_map.2 ⟨_, hmem, rfl⟩)
      rw [if_pos rfl, Option.some.injEq]
      constructor
      · rintro rfl
        exact .inl rfl
      · rintro (heq | hmem)
        · rw [← heq]
        · exact absurd hmem hnot
    · have hne : (k, n) ≠ e := fun heq => hk (congrArg Prod.fst heq)
      rw [if_neg hk, lookup_eq_some_iff_mem hl]
      simp only [hne, false_or]

theorem lookup_reverse (h : (l.map Prod.fst).Nodup) (k : String) : l.reverse.lookup k = l.lookup k := by
  have hreverse : (l.reverse.map Prod.fst).Nodup := by
    rw [List.map_reverse]
    exact List.pairwise_reverse.2 (h.imp Ne.symm)
  refine Option.ext fun n => ?_
  rw [lookup_eq_some_iff_mem hreverse, lookup_eq_some_iff_mem h, List.mem_reverse]

theorem nodup_names (d : TokenMap) : (d.entries.map Prod.fst).Nodup :=
  d.sorted.imp fun {a b} (hlt : a < b) (heq : a = b) => String.lt_irrefl b (heq ▸ hlt)

end TokenMap

/-! ## Writing and reading a marking -/

namespace Marking

variable {net : Net} {m m' : Marking}

theorem count_empty (net : Net) (p : PlaceId) : (empty net).count p = 0 := by
  unfold count empty
  rw [List.getElem?_replicate]
  split <;> rfl

theorem ext_count (hsize : m.size = m'.size) (h : ∀ p < m.size, m.count p = m'.count p) : m = m' := by
  obtain ⟨counts⟩ := m
  obtain ⟨counts'⟩ := m'
  refine congrArg Marking.mk (List.ext_getElem hsize fun p hp hp' => ?_)
  have hcount := h p hp
  simp only [count, List.getElem?_eq_getElem hp, List.getElem?_eq_getElem hp', Option.elim_some] at hcount
  exact UInt32.toNat_inj.1 hcount

/-- **What is read from named counts**: the last one given for a place, and for all others what was there before. -/
theorem setNamed_counts : ∀ (es : List (String × UInt32)) (m : Marking), m.size = net.places.length →
    (∀ e ∈ es, ∃ p, net.placeId? e.1 = some p) → ∃ m', setNamed net es m = .ok m' ∧
      ∀ p < net.places.length, m'.count p = ((es.reverse.lookup (net.placeName p)).elim (m.count p) UInt32.toNat)
  | [], m, _, _ => ⟨m, rfl, fun _ _ => rfl⟩
  | (name, n) :: es, m, hsize, hes => by
    obtain ⟨p, hp⟩ := hes _ List.mem_cons_self
    have hlt : p < m.size := by
      rw [hsize]
      exact Graph.placeId?_lt hp
    have hset : (⟨m.counts.set p n⟩ : Marking).size = net.places.length := by
      rw [← hsize]
      exact List.length_set
    obtain ⟨m', hm', hcounts⟩ := setNamed_counts es ⟨m.counts.set p n⟩ hset fun e he => hes e (List.mem_cons_of_mem _ he)
    refine ⟨m', by rw [setNamed, hp]; exact hm', fun q hq => ?_⟩
    rw [hcounts q hq, count_set hlt, List.reverse_cons, List.lookup_append, TokenMap.lookup_cons]
    -- A later entry of the same name wins, so the one set here counts only where there is none.
    cases es.reverse.lookup (net.placeName q) with
    | some k => rfl
    | none =>
      by_cases h : q = p
      · subst h
        rw [if_pos (Graph.placeName_of_placeId? hp), if_pos rfl]
        rfl
      · have hname : net.placeName q ≠ name := fun he =>
          h (Graph.placeName_inj hq (Graph.placeId?_lt hp) (he.trans (Graph.placeName_of_placeId? hp).symm))
        rw [if_neg hname, if_neg h]
        rfl

/-- The names and counts of some places, none of them twice: a name is found with the count of its place. -/
theorem lookup_named (f : PlaceId → UInt32) {ps : List PlaceId} {p : PlaceId} (hp : p < net.places.length)
    (hps : ∀ q ∈ ps, q < net.places.length) :
    (ps.map fun q => (net.placeName q, f q)).lookup (net.placeName p) = if p ∈ ps then some (f p) else none := by
  induction ps with
  | nil => rfl
  | cons q ps ih =>
    have hq := hps q List.mem_cons_self
    have hrest := ih fun r hr => hps r (List.mem_cons_of_mem _ hr)
    rw [List.map_cons, TokenMap.lookup_cons, hrest]
    by_cases h : p = q
    · subst h
      rw [if_pos rfl, if_pos List.mem_cons_self]
    · have hname : net.placeName p ≠ net.placeName q := fun he => h (Graph.placeName_inj hp hq he)
      rw [if_neg hname]
      simp only [List.mem_cons, h, false_or]

/-- The saved form of a marking has the counts of the marked places and nothing else. -/
theorem lookup_toTokenMap (hsize : m.size = net.places.length) {p : PlaceId} (hp : p < net.places.length) :
    (m.toTokenMap net).entries.lookup (net.placeName p) =
      if m.isMarked p then some (UInt32.ofNat (m.count p)) else none := by
  unfold toTokenMap
  rw [TokenMap.lookup_ofList, ← List.map_reverse, lookup_named (fun q => UInt32.ofNat (m.count q)) hp]
  · simp only [List.mem_reverse, mem_marked]
  · intro q hq
    rw [List.mem_reverse, mem_marked] at hq
    exact hsize ▸ lt_size_of_isMarked hq

theorem exists_place_of_mem_toTokenMap {e : String × UInt32} (he : e ∈ (m.toTokenMap net).entries) :
    ∃ p, m.isMarked p = true ∧ net.placeName p = e.1 := by
  have hlookup := (TokenMap.lookup_eq_some_iff_mem (m.toTokenMap net).nodup_names).2 he
  unfold toTokenMap at hlookup
  rw [TokenMap.lookup_ofList, List.lookup_eq_some_iff] at hlookup
  obtain ⟨l₁, l₂, hsplit, -⟩ := hlookup
  have hmem : (e.1, e.2) ∈ (m.marked.map fun p => (net.placeName p, UInt32.ofNat (m.count p))) :=
    List.mem_reverse.1 (hsplit ▸ List.mem_append_right l₁ List.mem_cons_self)
  obtain ⟨p, hp, heq⟩ := List.mem_map.1 hmem
  exact ⟨p, mem_marked.1 hp, congrArg Prod.fst heq⟩

/-- **Saving loses nothing**: over its net a saved marking is read back as it was. -/
theorem ofTokenMap_toTokenMap (hsize : m.size = net.places.length) :
    ofTokenMap net (m.toTokenMap net) = .ok m := by
  have hknown : ∀ e ∈ (m.toTokenMap net).entries, ∃ p, net.placeId? e.1 = some p := by
    intro e he
    obtain ⟨p, hmarked, hname⟩ := exists_place_of_mem_toTokenMap he
    have hp : p < net.places.length := hsize ▸ lt_size_of_isMarked hmarked
    exact ⟨p, hname ▸ Graph.placeId?_placeName hp⟩
  have hempty : (empty net).size = net.places.length := List.length_replicate
  obtain ⟨m', hm', hcounts⟩ := setNamed_counts _ (empty net) hempty hknown
  have hread : ofTokenMap net (m.toTokenMap net) = .ok m' := hm'
  have hsize' := size_ofTokenMap hread
  have heq : m' = m := by
    refine ext_count (hsize'.trans hsize.symm) fun p hp => ?_
    have hp' : p < net.places.length := hsize' ▸ hp
    rw [hcounts p hp', TokenMap.lookup_reverse (m.toTokenMap net).nodup_names, lookup_toTokenMap hsize hp']
    by_cases hmarked : m.isMarked p = true
    · rw [if_pos hmarked, Option.elim_some]
      exact toNat_ofNat_of_lt_size (m.count_lt_size p)
    · have hzero : m.count p = 0 := by
        simpa [isMarked] using hmarked
      rw [if_neg hmarked, Option.elim_none, hzero]
      exact count_empty net p
  rw [hread, heq]

end Marking

end Workflow
