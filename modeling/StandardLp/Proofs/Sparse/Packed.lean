import Mathlib.Data.List.Chain
import Mathlib.Data.List.Flatten
import StandardLp.Proofs.Sparse.Export

/-!
Packed storage: the offsets start at zero, never decrease and end with the data, so that every
entry belongs to exactly one vector. Whatever is laid end to end is packed, and its vectors one
after the other are all that is stored.
-/

namespace StandardLp

namespace Compressed

variable {α : Type}

/-- The offsets cut the data into `n` vectors that follow on one another without a gap. -/
structure Packed (c : Compressed α) (n : Nat) : Prop where
  size_starts : c.starts.size = n + 1
  starts_zero : c.starts[0]? = some 0
  starts_last : c.starts[n]? = some c.values.size
  size_indices : c.indices.size = c.values.size
  ordered : c.starts.toList.Pairwise (· ≤ ·)

theorem nondecreasing_iff {l : List Nat} : nondecreasing l = true ↔ l.Pairwise (· ≤ ·) := by
  rw [← List.isChain_iff_pairwise]
  induction l with
  | nil => simp [nondecreasing]
  | cons start rest ih =>
    cases rest with
    | nil => simp [nondecreasing]
    | cons stop rest => simp [nondecreasing, ih]

theorem offsets_pairwise {β : Type} (start : Nat) (lists : List (List β)) :
    (offsets start lists).Pairwise (· ≤ ·) := by
  rw [offsets_eq, List.pairwise_map]
  refine List.pairwise_lt_range.imp fun hjk => ?_
  have hpart := List.take_sublist_take_left (l := lists) (Nat.le_of_lt hjk)
  exact Nat.add_le_add_left hpart.flatten.length_le _

section Vectors

variable (vectors : List (SparseVector α))

theorem size_values_ofVectors :
    (ofVectors vectors).values.size = (vectors.map (·.entries)).flatten.length := by
  rw [ofVectors, List.size_toArray, List.length_map]

theorem packed_ofVectors : (ofVectors vectors).Packed vectors.length where
  size_starts := by simp [ofVectors]
  starts_zero := by
    rw [ofVectors, List.getElem?_toArray, getElem?_offsets _ _ (Nat.zero_le _)]
    rfl
  starts_last := by
    rw [size_values_ofVectors, ofVectors, List.getElem?_toArray, getElem?_offsets _ _ (by simp),
      List.take_of_length_le (by simp), Nat.zero_add]
  size_indices := by
    rw [size_values_ofVectors, ofVectors, List.size_toArray, List.length_map]
  ordered := offsets_pairwise ..

/-- The vectors one after the other are all that is stored, and nothing is read twice. -/
theorem flatMap_vector?_ofVectors :
    (List.range vectors.length).flatMap (fun k => ((ofVectors vectors).vector? k).getD []) =
      (ofVectors vectors).indices.toList.zip (ofVectors vectors).values.toList := by
  have hread : (List.range vectors.length).map (fun k => ((ofVectors vectors).vector? k).getD []) =
      vectors.map (·.entries) := by
    apply List.ext_getElem
    · simp
    · intro k hk _
      have hlt : k < vectors.length := by simpa using hk
      rw [List.getElem_map, List.getElem_map, List.getElem_range, vector?_ofVectors _ hlt,
        Option.getD_some]
  rw [List.flatMap_def, hread, ofVectors, List.zip_map']
  exact (List.map_id _).symm

theorem numNonzeros_ofVectors :
    (ofVectors vectors).numNonzeros = vectors.foldl (fun n v => n + v.size) 0 := by
  rw [numNonzeros, size_values_ofVectors, List.length_flatten, List.sum_eq_foldl, List.foldl_map,
    List.foldl_map]
  rfl

end Vectors

end Compressed

end StandardLp
