import StandardLp.Proofs.Sparse.Stored
import StandardLp.Sparse.Exchange

/-!
Reading exported columns. The vectors that were laid end to end are read back one by one.
-/

namespace StandardLp

namespace Compressed

variable {α : Type}

theorem getElem?_offsets {β : Type} (start : Nat) (lists : List (List β)) {k : Nat}
    (hk : k ≤ lists.length) :
    (offsets start lists)[k]? = some (start + (lists.take k).flatten.length) := by
  induction lists generalizing start k with
  | nil =>
    obtain rfl : k = 0 := Nat.le_zero.mp hk
    rfl
  | cons l rest ih =>
    cases k with
    | zero => rfl
    | succ k =>
      rw [offsets, List.getElem?_cons_succ, ih (start + l.length) (Nat.le_of_succ_le_succ hk)]
      simp [Nat.add_assoc]

theorem offsets_eq {β : Type} (start : Nat) (lists : List (List β)) :
    offsets start lists =
      (List.range (lists.length + 1)).map fun k => start + (lists.take k).flatten.length := by
  apply List.ext_getElem?
  intro k
  by_cases hk : k < lists.length + 1
  · rw [getElem?_offsets _ _ (Nat.le_of_lt_succ hk)]
    simp [hk]
  · rw [List.getElem?_eq_none (by simpa using hk), List.getElem?_eq_none (by simpa using hk)]

theorem take_drop_flatten {β : Type} (lists : List (List β)) {k : Nat} (hk : k < lists.length) :
    (lists.flatten.drop (lists.take k).flatten.length).take lists[k].length = lists[k] := by
  have hsplit : lists.flatten =
      (lists.take k).flatten ++ (lists[k] ++ (lists.drop (k + 1)).flatten) := by
    rw [← List.flatten_cons, ← List.drop_eq_getElem_cons hk, ← List.flatten_append,
      List.take_append_drop]
  rw [hsplit, List.drop_left, List.take_left]

theorem vector?_ofVectors (vectors : List (SparseVector α)) {k : Nat} (hk : k < vectors.length) :
    (ofVectors vectors).vector? k = some vectors[k].entries := by
  generalize hlists : vectors.map (·.entries) = lists
  have hlength : lists.length = vectors.length := by simp [← hlists]
  have hget : lists[k] = vectors[k].entries := by simp [← hlists]
  have hstart := getElem?_offsets 0 lists (k := k) (by omega)
  have hstop := getElem?_offsets 0 lists (k := k + 1) (by omega)
  have hnext : (lists.take (k + 1)).flatten.length =
      (lists.take k).flatten.length + lists[k].length := by
    rw [List.take_succ_eq_append_getElem (by omega), List.flatten_append, List.length_append,
      List.flatten_singleton]
  have htotal : (lists.take (k + 1)).flatten.length ≤ lists.flatten.length := by
    conv => rhs; rw [← List.take_append_drop (k + 1) lists]
    rw [List.flatten_append, List.length_append]
    exact Nat.le_add_right _ _
  have hread := take_drop_flatten lists (k := k) (by omega)
  rw [vector?, ofVectors, hlists]
  simp only [List.getElem?_toArray, hstart, hstop, Nat.zero_add, Option.bind_eq_bind,
    Option.bind_some, List.size_toArray, List.length_map]
  rw [if_pos ⟨by omega, htotal, htotal⟩, hnext, List.extract_toArray, List.extract_toArray,
    List.extract_eq_take_drop, List.extract_eq_take_drop, Nat.add_sub_cancel_left,
    ← List.map_drop, ← List.map_drop, ← List.map_take, ← List.map_take, hread, hget,
    List.zip_map']
  simp

end Compressed

theorem SparseMatrix.vector?_toColumns {α : Type} (m : SparseMatrix α) {k : Nat}
    (hk : k < m.numColumns) : m.toColumns.vector? k = some (m.columnAt k).entries := by
  have hlength : k < m.columns.toList.length := hk
  rw [toColumns, Compressed.vector?_ofVectors _ hlength, columnAt, Array.getElem?_eq_getElem hk]
  rfl

theorem SparseMatrix.WellFormed.exists_stored_of_mem_values {α : Type} [Zero α] [BEq α]
    {m : SparseMatrix α} (h : m.WellFormed) {x : α} (hx : x ∈ m.toColumns.values) :
    ∃ i j, m.stored i j = some x := by
  have hmem : x ∈ (m.columns.toList.map (·.entries)).flatten.map (·.2) := by
    simpa [toColumns, Compressed.ofVectors] using hx
  obtain ⟨e, he, rfl⟩ := List.mem_map.mp hmem
  obtain ⟨l, hl, hel⟩ := List.mem_flatten.mp he
  obtain ⟨column, hcolumn, rfl⟩ := List.mem_map.mp hl
  rw [toList_columns] at hcolumn
  obtain ⟨k, -, rfl⟩ := List.mem_map.mp hcolumn
  exact ⟨e.1, k, h.mem_columnAt_iff.mp hel⟩

end StandardLp
