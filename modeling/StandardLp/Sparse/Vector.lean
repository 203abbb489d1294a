import StandardLp.Sparse.IndexMap

/-!
Sparse vectors: maps from indices to values that read as zero where nothing is stored. Writing a
zero removes the entry, so a vector that is only written to never stores one.
-/

namespace StandardLp

abbrev SparseVector := IndexMap

namespace IndexMap

variable {α : Type} [Zero α]

def value (v : IndexMap α) (i : Nat) : α := (v.get? i).getD 0

def set [BEq α] (v : IndexMap α) (i : Nat) (x : α) : IndexMap α :=
  if x == 0 then v.erase i else v.insert i x

/-- The first `n` values. -/
def dense (v : IndexMap α) (n : Nat) : List α := (List.range n).map v.value

@[simp] theorem value_empty (i : Nat) : (empty : IndexMap α).value i = 0 := rfl

@[simp] theorem length_dense (v : IndexMap α) (n : Nat) : (v.dense n).length = n := by
  simp [dense]

theorem get?_set [BEq α] (v : IndexMap α) (i : Nat) (x : α) (k : Nat) :
    (v.set i x).get? k = if k = i then (if x == 0 then none else some x) else v.get? k := by
  unfold set
  split
  · exact get?_erase v i k
  · exact get?_insert v i x k

theorem value_set [BEq α] (v : IndexMap α) (i : Nat) (x : α) (k : Nat) :
    (v.set i x).value k = if k = i then (if x == 0 then 0 else x) else v.value k := by
  unfold value
  rw [get?_set]
  split
  · split <;> rfl
  · rfl

theorem Sorted.set [BEq α] {v : IndexMap α} (h : v.Sorted) (i : Nat) (x : α) :
    (v.set i x).Sorted := by
  unfold IndexMap.set
  split
  · exact h.erase i
  · exact h.insert i x

end IndexMap

end StandardLp
