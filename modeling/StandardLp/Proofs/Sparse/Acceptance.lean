import StandardLp.Proofs.Sparse.Positions
import StandardLp.Proofs.Sparse.Refinement

/-!
Which triples of arrays are read as the rows of a matrix, and what is read from them. The checks
on the offsets taken together make every row a part of the data, so no entry is read outside of
it; of several values for one place the last counts, and a zero counts as nothing.
-/

namespace StandardLp

theorem Compressed.exists_lt_of_nondecreasing_eq_false {l : List Nat}
    (h : nondecreasing l = false) :
    ∃ (k start stop : Nat), l[k]? = some start ∧ l[k + 1]? = some stop ∧ stop < start := by
  rw [← Bool.not_eq_true, nondecreasing_iff, ← List.isChain_iff_pairwise,
    List.isChain_iff_getElem] at h
  push Not at h
  obtain ⟨k, hk, hlt⟩ := h
  exact ⟨k, _, _, List.getElem?_eq_getElem (Nat.lt_of_succ_lt hk), List.getElem?_eq_getElem hk, hlt⟩

namespace SparseMatrix

variable {α : Type}

/-- The refusal for the first check that the arrays do not pass as `numRows` rows. An entry out of
range is the one at the least position, and it is named with the row that this position is in. -/
inductive RowsRefusal (numRows numColumns : Nat) (c : Compressed α) : Inconsistency α → Prop
  | entryCounts (hcounts : c.values.size ≠ c.indices.size) :
    RowsRefusal numRows numColumns c (.entryCounts c.values.size c.indices.size)
  | offsetCount (hcounts : c.values.size = c.indices.size)
    (hoffsets : c.starts.size ≠ numRows + 1) :
    RowsRefusal numRows numColumns c (.offsetCount numRows c.starts.size)
  | offsetEnds (hcounts : c.values.size = c.indices.size) (hoffsets : c.starts.size = numRows + 1)
    (hends : ¬ (c.starts[0]? = some 0 ∧ c.starts[numRows]? = some c.values.size)) :
    RowsRefusal numRows numColumns c (.offsetEnds c.values.size)
  | offsetOrder {k start stop : Nat} (hcounts : c.values.size = c.indices.size)
    (hoffsets : c.starts.size = numRows + 1)
    (hends : c.starts[0]? = some 0 ∧ c.starts[numRows]? = some c.values.size)
    (hstart : c.starts[k]? = some start) (hstop : c.starts[k + 1]? = some stop)
    (hlt : stop < start) : RowsRefusal numRows numColumns c .offsetOrder
  | columnRange {i j p : Nat} (hc : c.Packed numRows) (hj : c.indices[p]? = some j)
    (hout : numColumns ≤ j) (hrow : c.Within i p)
    (hfirst : ∀ q < p, ∀ l, c.indices[q]? = some l → l < numColumns) :
    RowsRefusal numRows numColumns c (.columnRange j i numColumns)

section Checks

variable [Zero α] [BEq α] {numRows numColumns : Nat} {c : Compressed α}

theorem ofRows_of_packed (hc : c.Packed numRows) :
    ofRows numRows numColumns c =
      (c.triples.find? fun t => numColumns ≤ t.2.1).elim
        (.ok (c.triples.foldl (fun m t => m.write t.1 t.2.1 t.2.2) (zero numRows numColumns)))
        fun t => .error (.columnRange t.2.1 t.1 numColumns) := by
  have hordered : Compressed.nondecreasing c.starts.toList = true :=
    Compressed.nondecreasing_iff.mpr hc.ordered
  rw [ofRows, if_neg (not_not_intro hc.size_indices.symm), if_neg (not_not_intro hc.size_starts),
    if_neg (by simp [hc.starts_zero, hc.starts_last]), hordered, if_neg (by simp)]
  cases c.triples.find? fun t => numColumns ≤ t.2.1 <;> rfl

theorem exists_ofRows_eq_ok (hc : c.Packed numRows)
    (hcolumn : ∀ t ∈ c.triples, t.2.1 < numColumns) : ∃ m, ofRows numRows numColumns c = .ok m := by
  have hfind : c.triples.find? (fun t => numColumns ≤ t.2.1) = none := by
    rw [List.find?_eq_none]
    intro t ht
    simpa using hcolumn t ht
  rw [ofRows_of_packed hc, hfind]
  exact ⟨_, rfl⟩

theorem ofRows_of_refusal {e : Inconsistency α} (h : RowsRefusal numRows numColumns c e) :
    ofRows numRows numColumns c = .error e := by
  cases h with
  | entryCounts hcounts => rw [ofRows, if_pos hcounts]
  | offsetCount hcounts hoffsets => rw [ofRows, if_neg (not_not_intro hcounts), if_pos hoffsets]
  | offsetEnds hcounts hoffsets hends =>
    rw [ofRows, if_neg (not_not_intro hcounts), if_neg (not_not_intro hoffsets),
      if_pos (not_and_or.mp hends)]
  | @offsetOrder k start stop hcounts hoffsets hends hstart hstop hlt =>
    have hordered : Compressed.nondecreasing c.starts.toList = false := by
      refine Bool.eq_false_iff.mpr fun htrue => ?_
      have hc : c.Packed numRows :=
        ⟨hoffsets, hends.1, hends.2, hcounts.symm, Compressed.nondecreasing_iff.mp htrue⟩
      exact Nat.not_le.mpr hlt (hc.le_of_le (Nat.le_succ k) hstart hstop)
    rw [ofRows, if_neg (not_not_intro hcounts), if_neg (not_not_intro hoffsets),
      if_neg (by simp [hends]), if_pos hordered]
  | @columnRange i j p hc hj hout hrow hfirst =>
    have hp : p < c.values.size := hc.size_indices ▸ (Array.getElem?_eq_some_iff.mp hj).1
    have hfind : c.triples.find? (fun t => numColumns ≤ t.2.1) = some (i, j, c.values[p]) :=
      hc.find?_triples_eq_some_iff.mpr
        ⟨p, ⟨hrow, hj, Array.getElem?_eq_getElem hp⟩, hout, hfirst⟩
    rw [ofRows_of_packed hc, hfind]
    rfl

theorem ofRows_cases (numRows numColumns : Nat) (c : Compressed α) :
    ((∃ m, ofRows numRows numColumns c = .ok m) ∧ c.Packed numRows ∧
      ∀ (p j : Nat), c.indices[p]? = some j → j < numColumns) ∨
    ∃ e, ofRows numRows numColumns c = .error e ∧ RowsRefusal numRows numColumns c e := by
  have hrefused : ∀ {e}, RowsRefusal numRows numColumns c e →
      ∃ e, ofRows numRows numColumns c = .error e ∧ RowsRefusal numRows numColumns c e :=
    fun h => ⟨_, ofRows_of_refusal h, h⟩
  -- the checks in their order, each made only if those before it have passed
  by_cases hcounts : c.values.size = c.indices.size
  case neg => exact .inr (hrefused (.entryCounts hcounts))
  by_cases hoffsets : c.starts.size = numRows + 1
  case neg => exact .inr (hrefused (.offsetCount hcounts hoffsets))
  by_cases hends : c.starts[0]? = some 0 ∧ c.starts[numRows]? = some c.values.size
  case neg => exact .inr (hrefused (.offsetEnds hcounts hoffsets hends))
  cases hordered : Compressed.nondecreasing c.starts.toList with
  | false =>
    obtain ⟨k, start, stop, hstart, hstop, hlt⟩ :=
      Compressed.exists_lt_of_nondecreasing_eq_false hordered
    rw [Array.getElem?_toList] at hstart hstop
    exact .inr (hrefused (.offsetOrder hcounts hoffsets hends hstart hstop hlt))
  | true =>
    have hc : c.Packed numRows :=
      ⟨hoffsets, hends.1, hends.2, hcounts.symm, Compressed.nondecreasing_iff.mp hordered⟩
    cases hfind : c.triples.find? fun t => numColumns ≤ t.2.1 with
    | none =>
      have hcolumn : ∀ t ∈ c.triples, t.2.1 < numColumns := fun t ht => by
        simpa using List.find?_eq_none.mp hfind t ht
      exact .inl ⟨exists_ofRows_eq_ok hc hcolumn, hc, hc.forall_mem_triples_iff.mp hcolumn⟩
    | some t =>
      obtain ⟨p, ⟨hrow, hj, -⟩, hout, hfirst⟩ := hc.find?_triples_eq_some_iff.mp hfind
      exact .inr (hrefused (.columnRange hc hj hout hrow hfirst))

theorem exists_ofRows_eq_ok_iff :
    (∃ m, ofRows numRows numColumns c = .ok m) ↔
      c.Packed numRows ∧ ∀ (p j : Nat), c.indices[p]? = some j → j < numColumns := by
  constructor
  · rintro ⟨m, hm⟩
    obtain ⟨-, haccepted⟩ | ⟨e, he, -⟩ := ofRows_cases numRows numColumns c
    · exact haccepted
    · cases hm.symm.trans he
  · rintro ⟨hc, hcolumn⟩
    exact exists_ofRows_eq_ok hc (hc.forall_mem_triples_iff.mpr hcolumn)

theorem ofRows_eq_error_iff {e : Inconsistency α} :
    ofRows numRows numColumns c = .error e ↔ RowsRefusal numRows numColumns c e := by
  refine ⟨fun herror => ?_, ofRows_of_refusal⟩
  obtain ⟨⟨m, hm⟩, -⟩ | ⟨e', he', hrefusal⟩ := ofRows_cases numRows numColumns c
  · cases hm.symm.trans herror
  · cases herror.symm.trans he'
    exact hrefusal

/-- Of two columns that are out of range the first is reported, with its row. -/
example : ofRows 2 2 (⟨#[1, 1, 1], #[0, 5, 7], #[0, 1, 3]⟩ : Compressed (Binary .binary64)) =
    .error (.columnRange 5 1 2) := rfl

theorem foldlM_set_eq {m : SparseMatrix α} {l : List (Nat × Nat × α)}
    (h : ∀ t ∈ l, t.1 < m.numRows ∧ t.2.1 < m.numColumns) :
    l.foldlM (fun m t => m.set t.1 t.2.1 t.2.2) m =
      .ok (l.foldl (fun m t => m.write t.1 t.2.1 t.2.2) m) := by
  induction l generalizing m with
  | nil => rfl
  | cons t l ih =>
    obtain ⟨⟨hrow, hcolumn⟩, hrest⟩ := List.forall_mem_cons.mp h
    rw [List.foldlM_cons, set_eq, if_pos hrow, if_pos hcolumn, List.foldl_cons]
    exact ih (by simpa using hrest)

end Checks

/-! ### What is read -/

variable {f : Format} {numRows numColumns : Nat} {c : Compressed (Binary f)} {i j : Nat}

/-- The last value that is given for a place is read from it. -/
theorem value_ofRows_of_lastAt (hc : c.Packed numRows) {p : Nat} (hlast : c.LastAt i j p)
    {x : Binary f} (hx : c.values[p]? = some x) :
    (Grid.ofRows numRows numColumns c).value i j = written x := by
  obtain ⟨v, start, hread, hstart, hget⟩ := hc.exists_vector (hc.lt_of_within hlast.within)
  obtain ⟨q, rfl⟩ : ∃ q, p = start + q := by
    obtain ⟨_, _, hstart', -, hle, -⟩ := hlast.within
    cases hstart.symm.trans hstart'
    exact ⟨p - start, (Nat.add_sub_cancel' hle).symm⟩
  have hfind : v.reverse.find? (·.1 == j) = some (j, x) := by
    have hmem : v[q]? = some (j, x) := (hget q (j, x)).mpr ⟨hlast.within, hlast.index, hx⟩
    refine find?_reverse_of_last (·.1 == j) hmem (beq_self_eq_true j) fun k hk d hd => ?_
    obtain ⟨hwithin, hindex, -⟩ := (hget k d).mp hd
    refine beq_eq_false_iff_ne.mpr fun hj => ?_
    exact hlast.last _ (Nat.add_lt_add_left hk start) hwithin (hj ▸ hindex)
  simp only [Grid.ofRows, hread, Option.getD_some, hfind, Option.elim_some]

theorem value_ofRows_of_absent (hc : c.Packed numRows) (hi : i < numRows)
    (habsent : ∀ p, c.Within i p → c.indices[p]? ≠ some j) :
    (Grid.ofRows numRows numColumns c).value i j = 0 := by
  obtain ⟨v, start, hread, -, hget⟩ := hc.exists_vector hi
  have hfind : v.reverse.find? (·.1 == j) = none := by
    refine List.find?_eq_none.mpr fun e he hj => ?_
    obtain ⟨q, hq⟩ := List.mem_iff_getElem?.mp (List.mem_reverse.mp he)
    obtain ⟨hwithin, hindex, -⟩ := (hget q e).mp hq
    exact habsent _ hwithin (hindex.trans (congrArg some (beq_iff_eq.mp hj)))
  simp only [Grid.ofRows, hread, Option.getD_some, hfind, Option.elim_none]

/-- How three arrays are read as the rows of a matrix. They are accepted exactly when they are
packed and name no column out of range, and are otherwise refused for the first check that they do
not pass. Every row of packed storage is a part of the data, and all that is written before the
first column out of range is within the matrix. For every place of an accepted matrix the last
value that was given counts; a zero is not stored and reads like a place without one. -/
structure ReadsRows (numRows numColumns : Nat) (c : Compressed (Binary f)) : Prop where
  accepted : (∃ m, ofRows numRows numColumns c = .ok m) ↔
    c.Packed numRows ∧ ∀ (p j : Nat), c.indices[p]? = some j → j < numColumns
  refused : ∀ e, ofRows numRows numColumns c = .error e ↔ RowsRefusal numRows numColumns c e
  sliced : c.Packed numRows → ∀ i < numRows, ∃ row, c.vector? i = some row
  in_range : c.Packed numRows → ∀ p, (∀ q < p, ∀ j, c.indices[q]? = some j → j < numColumns) →
    ∃ m, (c.triples.take p).foldlM (fun m t => m.set t.1 t.2.1 t.2.2) (zero numRows numColumns) =
      .ok m
  size : ∀ m, ofRows numRows numColumns c = .ok m →
    m.numRows = numRows ∧ m.numColumns = numColumns
  given : ∀ m, ofRows numRows numColumns c = .ok m → ∀ i j p x, i < numRows → j < numColumns →
    c.LastAt i j p → c.values[p]? = some x →
    m.get i j = .ok (written x) ∧ (m.rowAt i).get? j = (if x == 0 then none else some x) ∧
      (m.columnAt j).get? i = (if x == 0 then none else some x)
  absent : ∀ m, ofRows numRows numColumns c = .ok m → ∀ i j, i < numRows → j < numColumns →
    (∀ p, c.Within i p → c.indices[p]? ≠ some j) →
    m.get i j = .ok 0 ∧ (m.rowAt i).get? j = none ∧ (m.columnAt j).get? i = none

theorem Represents.get_and_stored {m : SparseMatrix (Binary f)} {g : Grid (Binary f)} {x : Binary f}
    (h : m.Represents g) (hi : i < g.numRows) (hj : j < g.numColumns)
    (hx : g.value i j = written x) :
    m.get i j = .ok (written x) ∧ (m.rowAt i).get? j = (if x == 0 then none else some x) ∧
      (m.columnAt j).get? i = (if x == 0 then none else some x) := by
  have hstored : m.stored i j = if x == 0 then none else some x := by
    rw [h.stored (h.numRows ▸ hi) (h.numColumns ▸ hj), Grid.stored, hx, written]
    cases hzero : x == 0 <;> simp [hzero, Binary.zero_beq_zero]
  refine ⟨?_, hstored, (h.wellFormed.get?_columnAt i j).trans hstored⟩
  rw [h.refines.get i j hi hj, hx]

/-- Whatever arrays are given, this is how they are read. -/
theorem ofRows_readsRows (numRows numColumns : Nat) (c : Compressed (Binary f)) :
    ReadsRows numRows numColumns c where
  accepted := exists_ofRows_eq_ok_iff
  refused _ := ofRows_eq_error_iff
  sliced hc i hi := by
    obtain ⟨row, -, hrow, -⟩ := hc.exists_vector hi
    exact ⟨row, hrow⟩
  in_range hc p hcolumn := by
    refine ⟨_, foldlM_set_eq fun t ht => ?_⟩
    obtain ⟨q, hq⟩ := List.mem_iff_getElem?.mp ht
    rw [List.getElem?_take, Option.ite_none_right_eq_some] at hq
    obtain ⟨hwithin, hindex, -⟩ := hc.getElem?_triples.mp hq.2
    rw [numRows_zero, numColumns_zero]
    exact ⟨hc.lt_of_within hwithin, hcolumn q hq.1 _ hindex⟩
  size m hm := by
    have h := Represents.of_begins (.ofRows hm)
    exact ⟨h.numRows, h.numColumns⟩
  given m hm i j p x hi hj hlast hx := by
    have hc := (exists_ofRows_eq_ok_iff.mp ⟨m, hm⟩).1
    exact (Represents.of_begins (.ofRows hm)).get_and_stored hi hj
      (value_ofRows_of_lastAt hc hlast hx)
  absent m hm i j hi hj habsent := by
    have hc := (exists_ofRows_eq_ok_iff.mp ⟨m, hm⟩).1
    have hzero : written (0 : Binary f) = 0 := by simp [written]
    have h := (Represents.of_begins (.ofRows hm)).get_and_stored hi hj
      ((value_ofRows_of_absent hc hi habsent).trans hzero.symm)
    rwa [hzero, Binary.zero_beq_zero] at h

end SparseMatrix

end StandardLp
