import StandardLp.Proofs.Sparse.Refinement

/-!
The storage of a matrix is settled by what is read from it. However a matrix has come about, its
rows and its columns hold the nonzero entries in order and nothing else, so two matrices of one
size that read alike are the same, and an order of writes, an entry that was overwritten or one
that was cleared leaves nothing behind.
-/

namespace StandardLp

namespace SparseMatrix

/-! ### Writes -/

section Writes

variable {α : Type}

def writes (ws : List (Nat × Nat × α)) : List (Edit α) := ws.map fun w => .set w.1 w.2.1 w.2.2

def lastAt? (ws : List (Nat × Nat × α)) (i j : Nat) : Option α :=
  ws.reverse.findSome? fun w => if w.1 = i ∧ w.2.1 = j then some w.2.2 else none

theorem lastAt?_append (ws ws' : List (Nat × Nat × α)) (i j : Nat) :
    lastAt? (ws ++ ws') i j = (lastAt? ws' i j).or (lastAt? ws i j) := by
  rw [lastAt?, List.reverse_append, List.findSome?_append]
  rfl

@[simp] theorem lastAt?_nil (i j : Nat) : lastAt? ([] : List (Nat × Nat × α)) i j = none := rfl

@[simp] theorem lastAt?_singleton (w : Nat × Nat × α) (i j : Nat) :
    lastAt? [w] i j = if w.1 = i ∧ w.2.1 = j then some w.2.2 else none := by
  by_cases h : w.1 = i ∧ w.2.1 = j <;> simp [lastAt?, h]

theorem lastAt?_cons (w : Nat × Nat × α) (ws : List (Nat × Nat × α)) (i j : Nat) :
    lastAt? (w :: ws) i j =
      (lastAt? ws i j).or (if w.1 = i ∧ w.2.1 = j then some w.2.2 else none) := by
  rw [← List.singleton_append, lastAt?_append, lastAt?_singleton]

theorem exists_mem_of_lastAt? {ws : List (Nat × Nat × α)} {i j : Nat} {x : α}
    (h : lastAt? ws i j = some x) : (i, j, x) ∈ ws := by
  obtain ⟨w, hw, hx⟩ := List.exists_of_findSome?_eq_some h
  split at hx
  · rename_i hat
    obtain ⟨rfl, rfl⟩ := hat
    cases hx
    exact List.mem_reverse.mp hw
  · cases hx

theorem lastAt?_eq_none_iff {ws : List (Nat × Nat × α)} {i j : Nat} :
    lastAt? ws i j = none ↔ ∀ w ∈ ws, ¬ (w.1 = i ∧ w.2.1 = j) := by
  simp [lastAt?, List.findSome?_eq_none_iff]

/-- Without its writes to row `i` and column `j`, a list writes nothing there and the same
everywhere else. -/
theorem lastAt?_filter (ws : List (Nat × Nat × α)) (i j k l : Nat) :
    lastAt? (ws.filter fun w => ¬ (w.1 = i ∧ w.2.1 = j)) k l =
      if k = i ∧ l = j then none else lastAt? ws k l := by
  induction ws with
  | nil => simp
  | cons w ws ih =>
    by_cases hw : w.1 = i ∧ w.2.1 = j
    · rw [List.filter_cons_of_neg (by simp [hw]), ih]
      by_cases hk : k = i ∧ l = j
      · rw [if_pos hk, if_pos hk]
      · have hne : ¬ (w.1 = k ∧ w.2.1 = l) := by omega
        rw [if_neg hk, if_neg hk, lastAt?_cons, if_neg hne, Option.or_none]
    · rw [List.filter_cons_of_pos (by simpa only [decide_eq_true_eq] using hw), lastAt?_cons, ih,
        lastAt?_cons]
      by_cases hk : k = i ∧ l = j
      · have hne : ¬ (w.1 = k ∧ w.2.1 = l) := by omega
        rw [if_pos hk, if_pos hk, if_neg hne, Option.or_none]
      · rw [if_neg hk, if_neg hk]

end Writes

/-! ### Reading a matrix that was written to -/

section Entries

variable {α : Type} [Zero α] [BEq α] {m : SparseMatrix α}

@[simp] theorem numRows_edited_set (m : SparseMatrix α) (i j : Nat) (x : α) :
    (m.edited (.set i j x)).numRows = m.numRows := by
  rw [edited_set]
  split
  · exact numRows_write ..
  · rfl

@[simp] theorem numColumns_edited_set (m : SparseMatrix α) (i j : Nat) (x : α) :
    (m.edited (.set i j x)).numColumns = m.numColumns := by
  rw [edited_set]
  split
  · exact numColumns_write ..
  · rfl

theorem entry_edited_set {k l : Nat} (hk : k < m.numRows) (hl : l < m.numColumns) (i j : Nat)
    (x : α) :
    (m.edited (.set i j x)).entry k l = if i = k ∧ j = l then written x else m.entry k l := by
  rw [edited_set]
  by_cases hin : i < m.numRows ∧ j < m.numColumns
  · rw [if_pos hin, entry_write _ _ _ _ hin.1]
    exact if_congr (and_congr eq_comm eq_comm) rfl rfl
  · have hne : ¬ (i = k ∧ j = l) := by omega
    rw [if_neg hin, if_neg hne]

theorem run_writes_cons (m : SparseMatrix α) (w : Nat × Nat × α) (ws : List (Nat × Nat × α)) :
    m.run (writes (w :: ws)) = (m.edited (.set w.1 w.2.1 w.2.2)).run (writes ws) := rfl

@[simp] theorem numRows_run_writes (m : SparseMatrix α) (ws : List (Nat × Nat × α)) :
    (m.run (writes ws)).numRows = m.numRows := by
  induction ws generalizing m with
  | nil => rfl
  | cons w ws ih => rw [run_writes_cons, ih, numRows_edited_set]

@[simp] theorem numColumns_run_writes (m : SparseMatrix α) (ws : List (Nat × Nat × α)) :
    (m.run (writes ws)).numColumns = m.numColumns := by
  induction ws generalizing m with
  | nil => rfl
  | cons w ws ih => rw [run_writes_cons, ih, numColumns_edited_set]

/-- After any writes an entry is what was written there last, if anything was. -/
theorem entry_run_writes {i j : Nat} (hi : i < m.numRows) (hj : j < m.numColumns)
    (ws : List (Nat × Nat × α)) :
    (m.run (writes ws)).entry i j = (lastAt? ws i j).elim (m.entry i j) written := by
  induction ws generalizing m with
  | nil => rfl
  | cons w ws ih =>
    rw [run_writes_cons, ih (by simpa using hi) (by simpa using hj), entry_edited_set hi hj,
      lastAt?_cons]
    cases lastAt? ws i j with
    | some x => rfl
    | none => by_cases hw : w.1 = i ∧ w.2.1 = j <;> simp [hw]

theorem Reachable.run (h : m.Reachable) (edits : List (Edit α)) : (m.run edits).Reachable := by
  induction edits generalizing m with
  | nil => exact h
  | cons e edits ih => exact ih (.edited h e)

theorem WellFormed.run (h : m.WellFormed) (edits : List (Edit α)) : (m.run edits).WellFormed := by
  induction edits generalizing m with
  | nil => exact h
  | cons e edits ih => exact ih (h.edited e)

end Entries

/-! ### One matrix for what is read -/

/-- A list compares equal to itself if its elements do. -/
theorem beq_self_iff_forall_mem {β : Type} [BEq β] (l : List β) :
    (l == l) = true ↔ ∀ b ∈ l, (b == b) = true := by
  induction l with
  | nil => simp
  | cons b l ih => rw [List.cons_beq_cons, Bool.and_eq_true, ih, List.forall_mem_cons]

variable {f : Format} {m n : SparseMatrix (Binary f)} {g : Grid (Binary f)}

theorem Represents.unique (h : m.Represents g) (h' : n.Represents g) : m = n := by
  have hm := h.wellFormed.eq_tabulate fun i j => h.stored (i := i) (j := j)
  have hn := h'.wellFormed.eq_tabulate fun i j => h'.stored (i := i) (j := j)
  rw [hm, hn, h.numRows, h.numColumns, h'.numRows, h'.numColumns]

namespace WellFormed

theorem represents_entry (h : m.WellFormed) : m.Represents ⟨m.numRows, m.numColumns, m.entry⟩ :=
  ⟨h, rfl, rfl, fun _ _ _ _ => rfl⟩

theorem ext_entry (h : m.WellFormed) (h' : n.WellFormed) (hrows : m.numRows = n.numRows)
    (hcolumns : m.numColumns = n.numColumns)
    (hentry : ∀ i j, i < m.numRows → j < m.numColumns → m.entry i j = n.entry i j) : m = n := by
  refine h.represents_entry.unique ⟨h', hrows.symm, hcolumns.symm, fun i j hi hj => ?_⟩
  exact (hentry i j hi hj).symm

theorem written_entry (h : m.WellFormed) (i j : Nat) : written (m.entry i j) = m.entry i j := by
  rw [entry_eq]
  cases hx : m.stored i j with
  | none => simp [written]
  | some x => simp [written, h.nonzero i j x hx]

theorem stored_eq_none (h : m.WellFormed) {i j : Nat} (hentry : m.entry i j = 0) :
    m.stored i j = none := by
  cases hx : m.stored i j with
  | none => rfl
  | some x =>
    rw [entry_eq, hx, Option.getD_some] at hentry
    have hzero := h.nonzero i j x hx
    rw [hentry, Binary.zero_beq_zero] at hzero
    cases hzero

/-- Lists of writes that leave the same entries leave the same matrix. -/
theorem run_writes_eq (h : m.WellFormed) (ws ws' : List (Nat × Nat × Binary f))
    (hlast : ∀ i j, i < m.numRows → j < m.numColumns →
      (lastAt? ws i j).elim (m.entry i j) written =
        (lastAt? ws' i j).elim (m.entry i j) written) :
    m.run (writes ws) = m.run (writes ws') := by
  apply (h.run _).ext_entry (h.run _)
  · rw [numRows_run_writes, numRows_run_writes]
  · rw [numColumns_run_writes, numColumns_run_writes]
  · intro i j hi hj
    rw [numRows_run_writes] at hi
    rw [numColumns_run_writes] at hj
    rw [entry_run_writes hi hj, entry_run_writes hi hj, hlast i j hi hj]

theorem beq_self_iff (h : m.WellFormed) :
    (m == m) = true ↔ ∀ i j x, m.stored i j = some x → x.isNaN = false := by
  have hmatrix : (m == m) =
      (m.rows.toList == m.rows.toList && m.columns.toList == m.columns.toList) := by
    rw [Array.beq_toList, Array.beq_toList]
    rfl
  have hvector : ∀ v : SparseVector (Binary f),
      (v == v) = true ↔ ∀ e ∈ v.entries, e.2.isNaN = false := by
    intro v
    change (v.entries == v.entries) = true ↔ _
    rw [beq_self_iff_forall_mem]
    refine forall₂_congr fun e _ => ?_
    change (e.1 == e.1 && e.2 == e.2) = true ↔ _
    rw [beq_self_eq_true, Bool.true_and, Binary.beq_self_iff]
  rw [hmatrix, Bool.and_eq_true, beq_self_iff_forall_mem, beq_self_iff_forall_mem]
  simp only [hvector]
  -- every stored entry is in a row, so the rows alone would do
  constructor
  · rintro ⟨hrows, -⟩ i j x hx
    refine hrows (m.rowAt i) ?_ (j, x) (h.mem_rowAt_iff.mpr hx)
    rw [toList_rows]
    have hi : i < m.numRows := h.lt_numRows ((h.get?_columnAt i j).trans hx)
    exact List.mem_map.mpr ⟨i, List.mem_range.mpr hi, rfl⟩
  · intro hnan
    constructor
    · intro v hv e he
      rw [toList_rows] at hv
      obtain ⟨i, -, rfl⟩ := List.mem_map.mp hv
      exact hnan i e.1 e.2 (h.mem_rowAt_iff.mp he)
    · intro v hv e he
      rw [toList_columns] at hv
      obtain ⟨j, -, rfl⟩ := List.mem_map.mp hv
      exact hnan e.1 j e.2 (h.mem_columnAt_iff.mp he)

end WellFormed

/-- The matrix stores nothing that its entries do not call for. Matrices that read alike are the
same and compare equal unless they hold a NaN. Of writes only the last at every place counts, in
whatever order: a zero that is written last leaves nothing behind, and old values that are written
back bring the old matrix back. -/
structure Canonical (m : SparseMatrix (Binary f)) : Prop where
  eq_of_get : ∀ n : SparseMatrix (Binary f), n.Reachable → m.numRows = n.numRows →
    m.numColumns = n.numColumns →
    (∀ i j, i < m.numRows → j < m.numColumns → m.get i j = n.get i j) →
    m.rows = n.rows ∧ m.columns = n.columns ∧
      ((m == n) = true ↔ ∀ i j x, m.stored i j = some x → x.isNaN = false)
  write_comm : ∀ i j k l x y, (i, j) ≠ (k, l) →
    (m.edited (.set i j x)).edited (.set k l y) = (m.edited (.set k l y)).edited (.set i j x)
  last_write : ∀ ws ws', (∀ i j, lastAt? ws i j = lastAt? ws' i j) →
    m.run (writes ws) = m.run (writes ws')
  overwrite : ∀ ws i j x, (∀ w ∈ ws, w.1 = i ∧ w.2.1 = j) →
    m.run (writes (ws ++ [(i, j, x)])) = m.edited (.set i j x)
  clear : ∀ ws i j x, lastAt? ws i j = some x → (x == 0) = true →
    ((m.run (writes ws)).rowAt i).get? j = none ∧ ((m.run (writes ws)).columnAt j).get? i = none ∧
      ((m.rowAt i).get? j = none →
        m.run (writes ws) = m.run (writes (ws.filter fun w => ¬ (w.1 = i ∧ w.2.1 = j))))
  restore : ∀ ws back, (∀ b ∈ back, m.get b.1 b.2.1 = .ok b.2.2) →
    (∀ w ∈ ws, ∃ b ∈ back, b.1 = w.1 ∧ b.2.1 = w.2.1) → m.run (writes (ws ++ back)) = m

namespace WellFormed

variable (h : m.WellFormed)
include h

theorem eq_of_get (h' : n.WellFormed) (hrows : m.numRows = n.numRows)
    (hcolumns : m.numColumns = n.numColumns)
    (hget : ∀ i j, i < m.numRows → j < m.numColumns → m.get i j = n.get i j) : m = n := by
  refine h.ext_entry h' hrows hcolumns fun i j hi hj => ?_
  have hread := hget i j hi hj
  rw [get_eq, get_eq, if_pos hi, if_pos hj, if_pos (hrows ▸ hi), if_pos (hcolumns ▸ hj)] at hread
  exact Except.ok.inj hread

theorem write_comm {i j k l : Nat} (x y : Binary f) (hne : (i, j) ≠ (k, l)) :
    (m.edited (.set i j x)).edited (.set k l y) = (m.edited (.set k l y)).edited (.set i j x) := by
  refine h.run_writes_eq [(i, j, x), (k, l, y)] [(k, l, y), (i, j, x)] ?_
  intro r c _ _
  simp only [lastAt?_cons, lastAt?_nil, Option.none_or]
  by_cases hfirst : i = r ∧ j = c
  · have hsecond : ¬ (k = r ∧ l = c) := by
      rintro ⟨rfl, rfl⟩
      exact hne (Prod.ext hfirst.1 hfirst.2)
    rw [if_pos hfirst, if_neg hsecond, Option.none_or, Option.or_none]
  · rw [if_neg hfirst, Option.none_or, Option.or_none]

theorem overwrite {ws : List (Nat × Nat × Binary f)} {i j : Nat}
    (hws : ∀ w ∈ ws, w.1 = i ∧ w.2.1 = j) (x : Binary f) :
    m.run (writes (ws ++ [(i, j, x)])) = m.edited (.set i j x) := by
  refine h.run_writes_eq _ [(i, j, x)] fun r c _ _ => ?_
  rw [lastAt?_append, lastAt?_singleton]
  by_cases hat : i = r ∧ j = c
  · rw [if_pos hat, Option.some_or]
  · have hnone : lastAt? ws r c = none := lastAt?_eq_none_iff.mpr fun w hw hrc =>
      hat ⟨(hws w hw).1.symm.trans hrc.1, (hws w hw).2.symm.trans hrc.2⟩
    rw [if_neg hat, hnone, Option.none_or]

theorem stored_run_writes_of_zero {ws : List (Nat × Nat × Binary f)} {i j : Nat} {x : Binary f}
    (hlast : lastAt? ws i j = some x) (hx : (x == 0) = true) :
    (m.run (writes ws)).stored i j = none := by
  by_cases hi : i < m.numRows
  · by_cases hj : j < m.numColumns
    · apply (h.run _).stored_eq_none
      rw [entry_run_writes hi hj, hlast, Option.elim_some, written, if_pos hx]
    · exact (h.run _).stored_of_le_column (by simpa using hj) i
  · exact stored_of_le_row _ (by simpa using hi) j

theorem run_writes_filter {ws : List (Nat × Nat × Binary f)} {i j : Nat} {x : Binary f}
    (hlast : lastAt? ws i j = some x) (hx : (x == 0) = true) (hstored : m.stored i j = none) :
    m.run (writes ws) = m.run (writes (ws.filter fun w => ¬ (w.1 = i ∧ w.2.1 = j))) := by
  refine h.run_writes_eq _ _ fun r c _ _ => ?_
  rw [lastAt?_filter]
  by_cases hat : r = i ∧ c = j
  · obtain ⟨rfl, rfl⟩ := hat
    rw [if_pos ⟨rfl, rfl⟩, hlast, Option.elim_some, Option.elim_none, written, if_pos hx, entry_eq,
      hstored, Option.getD_none]
  · rw [if_neg hat]

theorem restore {ws back : List (Nat × Nat × Binary f)}
    (hback : ∀ b ∈ back, m.get b.1 b.2.1 = .ok b.2.2)
    (hws : ∀ w ∈ ws, ∃ b ∈ back, b.1 = w.1 ∧ b.2.1 = w.2.1) :
    m.run (writes (ws ++ back)) = m := by
  refine h.run_writes_eq _ [] fun i j hi hj => ?_
  rw [lastAt?_append, lastAt?_nil, Option.elim_none]
  cases hlast : lastAt? back i j with
  | some x =>
    have hread : m.get i j = .ok x := hback _ (exists_mem_of_lastAt? hlast)
    rw [get_eq, if_pos hi, if_pos hj] at hread
    rw [Option.some_or, Option.elim_some, ← Except.ok.inj hread, h.written_entry]
  | none =>
    have hnone : lastAt? ws i j = none := by
      rw [lastAt?_eq_none_iff]
      rintro w hw ⟨rfl, rfl⟩
      obtain ⟨b, hb, hat⟩ := hws w hw
      exact lastAt?_eq_none_iff.mp hlast b hb hat
    rw [hnone, Option.none_or, Option.elim_none]

theorem canonical : m.Canonical where
  eq_of_get n hn hrows hcolumns hget := by
    obtain rfl := h.eq_of_get hn.wellFormed hrows hcolumns hget
    exact ⟨rfl, rfl, h.beq_self_iff⟩
  write_comm i j k l x y hne := h.write_comm x y hne
  last_write ws ws' hlast := h.run_writes_eq ws ws' fun i j _ _ => by rw [hlast]
  overwrite ws i j x hws := h.overwrite hws x
  clear ws i j x hlast hx := by
    have hstored := h.stored_run_writes_of_zero hlast hx
    exact ⟨hstored, ((h.run _).get?_columnAt i j).trans hstored, h.run_writes_filter hlast hx⟩
  restore ws back hback hws := h.restore hback hws

end WellFormed

/-- The storage of every matrix that can be made is settled by its entries, by whatever edits they
have come about. -/
theorem reachable_canonical (hm : m.Reachable) : m.Canonical := hm.wellFormed.canonical

/-- One matrix copies a row that the other writes out backwards, where a negative zero clears a NaN
on the way. -/
theorem reachable_canonical_detour :
    let m : SparseMatrix (Binary .binary64) :=
      ((SparseMatrix.zero 1 2).run (writes [(0, 0, .infinity), (0, 1, 1)])).edited (.copyRow 0)
    let n : SparseMatrix (Binary .binary64) := (SparseMatrix.zero 2 2).run (writes
      [(1, 1, 1), (0, 1, .nan), (0, 1, -0), (1, 0, .infinity), (0, 1, 1), (0, 0, .infinity)])
    m.Reachable ∧ m.Canonical ∧ m.rows = n.rows ∧ m.columns = n.columns ∧ (m == n) = true := by
  intro m n
  have hm : m.Reachable := .edited (.run (.zero 1 2) _) _
  have hn : n.Reachable := .run (.zero 2 2) _
  have hrows : m.numRows = 2 ∧ n.numRows = 2 := by decide +kernel
  have hcolumns : m.numColumns = 2 ∧ n.numColumns = 2 := by decide +kernel
  have hget : ∀ i < 2, ∀ j < 2, m.get i j = n.get i j := by decide +kernel
  obtain ⟨hr, hc, -⟩ := (reachable_canonical hm).eq_of_get n hn (hrows.1.trans hrows.2.symm)
    (hcolumns.1.trans hcolumns.2.symm) fun i j hi hj => hget i (hrows.1 ▸ hi) j (hcolumns.1 ▸ hj)
  exact ⟨hm, reachable_canonical hm, hr, hc, by decide +kernel⟩

end SparseMatrix

end StandardLp
