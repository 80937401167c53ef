/-!
# TokenMap — a marking that has left its net

Counts are kept by the name of the place, in ascending order of the names, each name once.  Two token
maps that hold the same counts are therefore equal.
-/
namespace Workflow

structure TokenMap where
  entries : List (String × UInt32) := []
  sorted : (entries.map Prod.fst).Pairwise (· < ·) := by decide
deriving DecidableEq, Repr

namespace TokenMap

/-- Writes one count, in place of an earlier one of that name. -/
def put (name : String) (n : UInt32) : List (String × UInt32) → List (String × UInt32)
  | [] => [(name, n)]
  | e :: es =>
    if name < e.1 then (name, n) :: e :: es
    else if name = e.1 then (name, n) :: es
    else e :: put name n es

theorem fst_mem_put {name : String} {n : UInt32} : ∀ {es : List (String × UInt32)} {k : String},
    k ∈ (put name n es).map Prod.fst → k = name ∨ k ∈ es.map Prod.fst
  | [], k, h => by simpa [put] using h
  | e :: es, k, h => by
    unfold put at h
    split at h
    · simpa using h
    · split at h
      · rename_i he
        simp only [List.map_cons, List.mem_cons] at h ⊢
        rcases h with h | h
        · exact .inl h
        · exact .inr (.inr h)
      · simp only [List.map_cons, List.mem_cons] at h ⊢
        rcases h with h | h
        · exact .inr (.inl h)
        · rcases fst_mem_put h with h | h
          · exact .inl h
          · exact .inr (.inr h)

theorem sorted_put {name : String} {n : UInt32} : ∀ {es : List (String × UInt32)},
    (es.map Prod.fst).Pairwise (· < ·) → ((put name n es).map Prod.fst).Pairwise (· < ·)
  | [], _ => by simp [put]
  | e :: es, h => by
    have hes := List.pairwise_cons.1 h
    unfold put
    split
    · rename_i hlt
      refine List.pairwise_cons.2 ⟨fun k hk => ?_, h⟩
      rcases List.mem_cons.1 hk with rfl | hk
      · exact hlt
      · exact String.lt_trans hlt (hes.1 k hk)
    · split
      · rename_i heq
        subst heq
        exact h
      · rename_i hlt hne
        refine List.pairwise_cons.2 ⟨fun k hk => ?_, sorted_put hes.2⟩
        rcases fst_mem_put hk with rfl | hk
        · exact Decidable.byContradiction (fun hnot =>
            hne (String.le_antisymm (String.not_lt.1 hnot) (String.not_lt.1 hlt)))
        · exact hes.1 k hk

def insert (d : TokenMap) (name : String) (n : UInt32) : TokenMap where
  entries := put name n d.entries
  sorted := sorted_put d.sorted

/-- The map of these counts; the last one of a name counts. -/
def ofList (l : List (String × UInt32)) : TokenMap :=
  l.foldl (fun d e => d.insert e.1 e.2) {}

end TokenMap

end Workflow
