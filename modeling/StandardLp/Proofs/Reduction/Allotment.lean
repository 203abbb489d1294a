import StandardLp.Sparse.IndexMap

/-!
Allotments: maps from split variables to the columns of their negative parts. The columns from
some index on are handed out one after the other, each to a variable that exists by then, so
every such column belongs to exactly one variable and is above it.
-/

namespace StandardLp

namespace IndexMap

variable {α : Type}

theorem size_insert {m : IndexMap α} {i : Nat} (h : m.get? i = none) (a : α) :
    (m.insert i a).size = m.size + 1 := by
  obtain ⟨l⟩ := m
  show (insert.go i a l).length = l.length + 1
  induction l with
  | nil => rfl
  | cons e rest ih =>
    rw [get?_cons] at h
    have hne : i ≠ e.1 := by
      intro heq
      rw [if_pos heq] at h
      cases h
    rw [if_neg hne] at h
    simp only [insert.go]
    by_cases hlt : e.1 < i
    · rw [if_pos hlt, List.length_cons, ih h, List.length_cons]
    · rw [if_neg hlt, if_neg (Ne.symm hne)]
      rfl

theorem insert_eq_push {m : IndexMap α} {i : Nat} (h : ∀ e ∈ m.entries, e.1 < i) (a : α) :
    m.insert i a = m.push i a := by
  obtain ⟨l⟩ := m
  show (⟨insert.go i a l⟩ : IndexMap α) = ⟨l ++ [(i, a)]⟩
  congr 1
  induction l with
  | nil => rfl
  | cons e rest ih =>
    rw [insert.go, if_pos (h e List.mem_cons_self), List.cons_append,
      ih fun d hd => h d (List.mem_cons_of_mem _ hd)]

end IndexMap

namespace Reduction

/-- Every key of `splits` has a column from `n` on to itself, and all columns from `n` up to the
last one have a key. -/
structure Allotment (splits : IndexMap Nat) (n : Nat) : Prop where
  sorted : splits.Sorted
  lt : ∀ {j k}, splits.get? j = some k → j < k
  bounds : ∀ {j k}, splits.get? j = some k → n ≤ k ∧ k < n + splits.size
  injective : ∀ {i j k}, splits.get? i = some k → splits.get? j = some k → i = j
  surjective : ∀ {k}, n ≤ k → k < n + splits.size → ∃ j, splits.get? j = some k

/-- Gives the next column to every member of `l` that has none. -/
def allot (splits : IndexMap Nat) (n : Nat) (l : List Nat) : IndexMap Nat :=
  l.foldl (fun m j => if (m.get? j).isSome then m else m.insert j (n + m.size)) splits

@[simp] theorem allot_nil (splits : IndexMap Nat) (n : Nat) : allot splits n [] = splits := rfl

theorem allot_append (splits : IndexMap Nat) (n : Nat) (l l' : List Nat) :
    allot splits n (l ++ l') = allot (allot splits n l) n l' :=
  List.foldl_append ..

theorem allot_singleton_of_isSome {splits : IndexMap Nat} {j : Nat}
    (h : (splits.get? j).isSome) (n : Nat) : allot splits n [j] = splits :=
  if_pos h

theorem allot_singleton_of_none {splits : IndexMap Nat} {j : Nat} (h : splits.get? j = none)
    (n : Nat) : allot splits n [j] = splits.insert j (n + splits.size) := by
  simp [allot, h]

theorem isSome_get?_allot (splits : IndexMap Nat) (n : Nat) (l : List Nat) (j : Nat) :
    ((allot splits n l).get? j).isSome ↔ (splits.get? j).isSome ∨ j ∈ l := by
  induction l generalizing splits with
  | nil => simp
  | cons i rest ih =>
    rw [← List.singleton_append, allot_append, ih]
    cases hi : splits.get? i with
    | some k =>
      rw [allot_singleton_of_isSome (by simp [hi])]
      by_cases hj : j = i <;> simp [hj, hi]
    | none =>
      rw [allot_singleton_of_none hi, IndexMap.get?_insert]
      by_cases hj : j = i <;> simp [hj]

theorem isSome_get?_allot_empty (n : Nat) (l : List Nat) (j : Nat) :
    ((allot .empty n l).get? j).isSome ↔ j ∈ l :=
  (isSome_get?_allot ..).trans (or_iff_right Bool.false_ne_true)

/-- A column that has been given to a variable stays with it. -/
theorem get?_allot_of_some {splits : IndexMap Nat} {j k : Nat} (h : splits.get? j = some k)
    (n : Nat) (l : List Nat) : (allot splits n l).get? j = some k := by
  induction l generalizing splits with
  | nil => exact h
  | cons i rest ih =>
    rw [← List.singleton_append, allot_append]
    apply ih
    cases hi : splits.get? i with
    | some m => rwa [allot_singleton_of_isSome (by simp [hi])]
    | none =>
      have hne : j ≠ i := by
        rintro rfl
        rw [hi] at h
        cases h
      rw [allot_singleton_of_none hi, IndexMap.get?_insert, if_neg hne, h]

theorem entries_allot_empty (n : Nat) {l : List Nat} (h : l.Pairwise (· < ·)) :
    (allot .empty n l).entries = l.zipIdx.map fun e => (e.1, n + e.2) := by
  -- the members of `done` have their columns, those of `rest` are still to receive theirs
  suffices hgo : ∀ rest done, (done ++ rest).Pairwise (· < ·) →
      ∀ m : IndexMap Nat, m.entries = done.zipIdx.map (fun e => (e.1, n + e.2)) →
        (allot m n rest).entries = (done ++ rest).zipIdx.map fun e => (e.1, n + e.2) from
    hgo l [] h .empty rfl
  intro rest
  induction rest with
  | nil =>
    intro done _ m hm
    rw [List.append_nil]
    exact hm
  | cons j rest ih =>
    intro done hdone m hm
    have hlt : ∀ e ∈ m.entries, e.1 < j := by
      intro e he
      rw [hm] at he
      obtain ⟨d, hd, rfl⟩ := List.mem_map.mp he
      have hmem : d.1 ∈ done := (List.mem_zipIdx hd).2.2 ▸ List.getElem_mem _
      exact (List.pairwise_append.mp hdone).2.2 _ hmem j List.mem_cons_self
    have hnone : m.get? j = none := by
      cases hx : m.get? j with
      | none => rfl
      | some k =>
        have hsorted : m.Sorted := by
          rw [IndexMap.Sorted, hm, List.pairwise_map, List.pairwise_iff_getElem]
          intro a b ha hb hab
          have hd := List.pairwise_iff_getElem.mp (List.pairwise_append.mp hdone).1
          simpa using hd a b (by simpa using ha) (by simpa using hb) hab
        exact absurd (hlt _ ((IndexMap.get?_eq_some_iff hsorted).mp hx)) (Nat.lt_irrefl _)
    rw [← List.singleton_append, allot_append, allot_singleton_of_none hnone,
      IndexMap.insert_eq_push hlt, ← List.append_assoc]
    apply ih
    · simpa using hdone
    · have hsize : m.size = done.length := by simp [IndexMap.size, hm]
      simp [IndexMap.push, hm, hsize, List.zipIdx_append]

namespace Allotment

variable {splits : IndexMap Nat} {n j k : Nat}

theorem empty (n : Nat) : Allotment .empty n where
  sorted := IndexMap.sorted_empty
  lt h := by cases h
  bounds h := by cases h
  injective h := by cases h
  surjective hle hlt := absurd hle (Nat.not_le_of_lt hlt)

theorem insert (h : Allotment splits n) (hj : splits.get? j = none)
    (hlt : j < n + splits.size) : Allotment (splits.insert j (n + splits.size)) n where
  sorted := h.sorted.insert _ _
  lt {i k} hk := by
    rw [IndexMap.get?_insert] at hk
    split at hk
    · cases hk
      omega
    · exact h.lt hk
  bounds {i k} hk := by
    rw [IndexMap.size_insert hj]
    rw [IndexMap.get?_insert] at hk
    split at hk
    · cases hk
      omega
    · have := h.bounds hk
      omega
  injective {i i' k} hi hi' := by
    rw [IndexMap.get?_insert] at hi hi'
    -- no pair has the new column yet
    split at hi <;> split at hi'
    · omega
    · cases hi
      have := h.bounds hi'
      omega
    · cases hi'
      have := h.bounds hi
      omega
    · exact h.injective hi hi'
  surjective {k} hle hk := by
    rw [IndexMap.size_insert hj] at hk
    by_cases hlast : k = n + splits.size
    · exact ⟨j, by rw [IndexMap.get?_insert, if_pos rfl, hlast]⟩
    · obtain ⟨i, hi⟩ := h.surjective hle (by omega)
      refine ⟨i, ?_⟩
      rw [IndexMap.get?_insert, if_neg, hi]
      rintro rfl
      rw [hj] at hi
      cases hi

end Allotment

end Reduction

end StandardLp
