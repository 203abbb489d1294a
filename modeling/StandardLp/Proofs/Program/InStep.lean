import StandardLp.Proofs.Program.Storage
import StandardLp.Proofs.Reduction.Consistent
import StandardLp.Proofs.Sparse.Canonical

/-!
The parts of a store stay in step. An index that is checked against the length of one of them is
good for the others, so that nothing panics and a refusal comes before any change. An edit
overwrites one cell or appends at the end, and all that was there before reads as before.
-/

namespace StandardLp

namespace Store

open LinearProgram (Cell Edit)

variable {f : Format} {β : Type} {s t : Store f} {e : Edit f} {a : Axis} {i j : Nat}

/-! ### What an edit does -/

/-- The edit overwrites the cell `c`, in which `x` is read from then on. -/
inductive Writes : Edit f → {β : Type} → Cell f β → β → Prop where
  | sense (i : Nat) (x : Sense) : Writes (.setSense i x) (.sense i) x
  | coefficient (i j : Nat) (b : Binary f) :
    Writes (.setCoefficient i j b) (.coefficient i j) (written b)
  | lower (j : Nat) (b : Binary f) : Writes (.setLower j b) (.lower j) b
  | upper (j : Nat) (b : Binary f) : Writes (.setUpper j b) (.upper j) b
  | cost (j : Nat) (b : Binary f) : Writes (.setCost j b) (.cost j) b

/-- What `t` shows at the index that the edit appends to `s`. -/
def Fills (s t : Store f) : Edit f → Prop
  | .addVariable => t.read (.lower s.numVariables) = .ok 0 ∧
      t.read (.upper s.numVariables) = .ok .infinity ∧ t.read (.cost s.numVariables) = .ok 0 ∧
      ∀ i < s.numConstraints, t.read (.coefficient i s.numVariables) = .ok 0
  | .addConstraint x b => t.read (.sense s.numConstraints) = .ok x ∧
      t.read (.rhs s.numConstraints) = .ok b ∧
      ∀ j < s.numVariables, t.read (.coefficient s.numConstraints j) = .ok 0
  | .copyConstraint i => t.read (.sense s.numConstraints) = s.read (.sense i) ∧
      t.read (.rhs s.numConstraints) = s.read (.rhs i) ∧
      ∀ j < s.numVariables, t.read (.coefficient s.numConstraints j) = s.read (.coefficient i j)
  | _ => True

/-- The edit takes `s` to `t` and returns `index`: it overwrites its cell, if it has one, or appends
at the old length, and everything else that was there is as before. -/
structure Carries (s : Store f) (e : Edit f) (index : Option Nat) (t : Store f) : Prop where
  index_eq : index = e.appends.map s.length
  length : ∀ a, t.length a = s.length a + if e.appends = some a then 1 else 0
  written : ∀ {β : Type} (c : Cell f β) (b : β), Writes e c b → t.read c = .ok b
  kept : ∀ {β : Type} (c : Cell f β), s.InRange c.indices → (∀ b, ¬ Writes e c b) →
    t.read c = s.read c
  row : e.appends.isSome → ∀ i v, s.matrix.row i = .ok v → t.matrix.row i = .ok v
  column : e.appends.isSome → ∀ j v, s.matrix.column j = .ok v →
    ∃ w, t.matrix.column j = .ok w ∧ w.entries.filter (·.1 < s.numConstraints) = v.entries
  filled : Fills s t e

theorem inRange_of_value? {c : Cell f β} {b : β} (h : s.Aligned) (hb : s.value? c = some b) :
    s.InRange c.indices := by
  cases c with
  | sense i =>
    have hi : i < s.numConstraints := (Array.getElem?_eq_some_iff.mp hb).1
    simpa [Cell.indices] using hi
  | rhs i =>
    have hi : i < s.rhs.size := (Array.getElem?_eq_some_iff.mp hb).1
    have hi' : i < s.numConstraints := Nat.lt_of_lt_of_eq hi h.rhs
    simpa [Cell.indices] using hi'
  | coefficient i j =>
    rw [value?] at hb
    split at hb
    · simpa [Cell.indices] using ‹_›
    · cases hb
  | lower j =>
    have hj : j < s.lower.size := (Array.getElem?_eq_some_iff.mp hb).1
    have hj' : j < s.numVariables := Nat.lt_of_lt_of_eq hj h.lower
    simpa [Cell.indices] using hj'
  | upper j =>
    have hj : j < s.upper.size := (Array.getElem?_eq_some_iff.mp hb).1
    have hj' : j < s.numVariables := Nat.lt_of_lt_of_eq hj h.upper
    simpa [Cell.indices] using hj'
  | cost j =>
    have hj : j < s.numVariables := (Array.getElem?_eq_some_iff.mp hb).1
    simpa [Cell.indices] using hj

theorem Aligned.read_eq (h : s.Aligned) {c : Cell f β} {b : β} (hb : s.value? c = some b) :
    s.read c = .ok b := by
  obtain ⟨b', hb', hrun⟩ := h.run_fetch c (inRange_of_value? h hb)
  cases hb.symm.trans hb'
  rw [read, hrun]

theorem Aligned.value?_eq (h : s.Aligned) {c : Cell f β} {b : β} (hb : s.read c = .ok b) :
    s.value? c = some b := by
  cases hout : s.firstOut? c.indices with
  | some refusal =>
    rw [read, run_fetch_of_out c hout] at hb
    cases hb
  | none =>
    obtain ⟨b', hb', hrun⟩ := h.run_fetch c (firstOut?_eq_none_iff.mp hout)
    rw [read, hrun] at hb
    cases hb
    exact hb'

theorem length_result (s : Store f) (e : Edit f) (a : Axis) :
    (s.result e).length a = s.length a + if e.appends = some a then 1 else 0 := by
  cases a <;> cases e <;> simp [result, Edit.appends, numConstraints, numVariables]

theorem numConstraints_le_result (s : Store f) (e : Edit f) :
    s.numConstraints ≤ (s.result e).numConstraints :=
  Nat.le.intro (s.length_result e .row).symm

theorem numVariables_le_result (s : Store f) (e : Edit f) :
    s.numVariables ≤ (s.result e).numVariables :=
  Nat.le.intro (s.length_result e .column).symm

theorem Sound.entry_result (h : s.Sound) (hin : s.InRange e.indices) (hi : i < s.numConstraints)
    (hw : ∀ b, ¬ Writes e (.coefficient i j) b) :
    (s.result e).matrix.entry i j = s.matrix.entry i j := by
  cases e with
  | setCoefficient k l b =>
    obtain ⟨hk, -⟩ : k < s.numConstraints ∧ l < s.numVariables := by
      simpa [Edit.indices] using hin
    rw [Store.result, SparseMatrix.entry_write _ _ _ _ (Nat.lt_of_lt_of_eq hk h.aligned.rows.symm),
      if_neg]
    rintro ⟨rfl, rfl⟩
    exact hw _ (.coefficient i j b)
  | addVariable => exact SparseMatrix.entry_addColumn ..
  | addConstraint x b => exact SparseMatrix.entry_addRow ..
  | copyConstraint k =>
    rw [Store.result, SparseMatrix.entry_appendRow, if_neg]
    exact Nat.ne_of_lt (Nat.lt_of_lt_of_eq hi h.aligned.rows.symm)
  | _ => rfl

theorem Sound.value?_result (h : s.Sound) (hin : s.InRange e.indices) {c : Cell f β}
    (hc : s.InRange c.indices) (hw : ∀ b, ¬ Writes e c b) :
    (s.result e).value? c = s.value? c := by
  have hpush : ∀ {γ : Type} {xs : Array γ} {n k : Nat} (x : γ), xs.size = n → k < n →
      (xs.push x)[k]? = xs[k]? := fun x hsize hk =>
    Array.getElem?_push.trans (if_neg (Nat.ne_of_lt (Nat.lt_of_lt_of_eq hk hsize.symm)))
  cases c with
  | sense k =>
    have hk : k < s.numConstraints := by simpa [Cell.indices] using hc
    cases e with
    | setSense i x =>
      refine Array.getElem?_setIfInBounds_ne ?_
      rintro rfl
      exact hw x (.sense i x)
    | addConstraint x b | copyConstraint i => exact hpush _ rfl hk
    | _ => rfl
  | rhs k =>
    have hk : k < s.numConstraints := by simpa [Cell.indices] using hc
    cases e with
    | addConstraint x b | copyConstraint i => exact hpush _ h.aligned.rhs hk
    | _ => rfl
  | coefficient k l =>
    obtain ⟨hk, hl⟩ : k < s.numConstraints ∧ l < s.numVariables := by
      simpa [Cell.indices] using hc
    -- a coefficient is read only if its row and its column are there, and they still are
    have hk' := Nat.lt_of_lt_of_le hk (s.numConstraints_le_result e)
    have hl' := Nat.lt_of_lt_of_le hl (s.numVariables_le_result e)
    rw [value?, value?, if_pos ⟨hk', hl'⟩, if_pos ⟨hk, hl⟩, h.entry_result hin hk hw]
  | lower k =>
    have hk : k < s.numVariables := by simpa [Cell.indices] using hc
    cases e with
    | setLower j b =>
      refine Array.getElem?_setIfInBounds_ne ?_
      rintro rfl
      exact hw b (.lower j b)
    | addVariable => exact hpush _ h.aligned.lower hk
    | _ => rfl
  | upper k =>
    have hk : k < s.numVariables := by simpa [Cell.indices] using hc
    cases e with
    | setUpper j b =>
      refine Array.getElem?_setIfInBounds_ne ?_
      rintro rfl
      exact hw b (.upper j b)
    | addVariable => exact hpush _ h.aligned.upper hk
    | _ => rfl
  | cost k =>
    have hk : k < s.numVariables := by simpa [Cell.indices] using hc
    cases e with
    | setCost j b =>
      refine Array.getElem?_setIfInBounds_ne ?_
      rintro rfl
      exact hw b (.cost j b)
    | addVariable => exact hpush _ rfl hk
    | _ => rfl

theorem Sound.value?_of_writes (h : s.Sound) (hin : s.InRange e.indices) {c : Cell f β} {b : β}
    (hw : Writes e c b) : (s.result e).value? c = some b := by
  cases hw with
  | sense i x =>
    have hi : i < s.numConstraints := by simpa [Edit.indices] using hin
    exact Array.getElem?_setIfInBounds_self_of_lt hi
  | coefficient i j b =>
    obtain ⟨hi, hj⟩ : i < s.numConstraints ∧ j < s.numVariables := by
      simpa [Edit.indices] using hin
    refine (if_pos ⟨hi, hj⟩).trans (congrArg some ?_)
    rw [Store.result, SparseMatrix.entry_write _ _ _ _ (Nat.lt_of_lt_of_eq hi h.aligned.rows.symm),
      if_pos ⟨rfl, rfl⟩]
    rfl
  | lower j b =>
    have hj : j < s.numVariables := by simpa [Edit.indices] using hin
    exact Array.getElem?_setIfInBounds_self_of_lt (Nat.lt_of_lt_of_eq hj h.aligned.lower.symm)
  | upper j b =>
    have hj : j < s.numVariables := by simpa [Edit.indices] using hin
    exact Array.getElem?_setIfInBounds_self_of_lt (Nat.lt_of_lt_of_eq hj h.aligned.upper.symm)
  | cost j b =>
    have hj : j < s.numVariables := by simpa [Edit.indices] using hin
    exact Array.getElem?_setIfInBounds_self_of_lt hj

/-! ### Rows and columns -/

theorem row_result (happends : e.appends.isSome) {v : SparseVector (Binary f)}
    (hv : s.matrix.row i = .ok v) : (s.result e).matrix.row i = .ok v := by
  rw [SparseMatrix.row_eq] at hv ⊢
  split at hv
  · rename_i hi
    cases e with
    | addVariable => exact (if_pos hi).trans hv
    | addConstraint x b =>
      rw [Store.result, SparseMatrix.numRows_addRow, if_pos (Nat.lt_succ_of_lt hi),
        SparseMatrix.rowAt_addRow]
      exact hv
    | copyConstraint k =>
      rw [Store.result, SparseMatrix.numRows_appendRow, if_pos (Nat.lt_succ_of_lt hi),
        SparseMatrix.rowAt_appendRow, if_neg (Nat.ne_of_lt hi)]
      exact hv
    | _ => cases happends
  · cases hv

/-- All that a column lists lies in rows that there are. -/
theorem Sound.filter_columnAt (h : s.Sound) (j : Nat) :
    (s.matrix.columnAt j).entries.filter (·.1 < s.numConstraints) =
      (s.matrix.columnAt j).entries := by
  rw [List.filter_eq_self]
  intro d hd
  have hbelow := (h.matrix.proper_columnAt j).below d hd
  rw [h.aligned.rows] at hbelow
  exact decide_eq_true hbelow

/-- A copy puts at most one entry below the others of a column, in the row that is new. -/
theorem Sound.column_result (h : s.Sound) (happends : e.appends.isSome)
    {v : SparseVector (Binary f)} (hv : s.matrix.column j = .ok v) :
    ∃ w, (s.result e).matrix.column j = .ok w ∧
      w.entries.filter (·.1 < s.numConstraints) = v.entries := by
  rw [SparseMatrix.column_eq] at hv
  split at hv
  · rename_i hj
    cases hv
    have hcolumn := h.filter_columnAt j
    rw [SparseMatrix.column_eq]
    cases e with
    | addVariable =>
      refine ⟨_, if_pos ?_, ?_⟩
      · rw [Store.result, SparseMatrix.numColumns_addColumn]
        exact Nat.lt_succ_of_lt hj
      · rwa [Store.result, SparseMatrix.columnAt_addColumn]
    | addConstraint x b => exact ⟨_, if_pos hj, hcolumn⟩
    | copyConstraint k =>
      refine ⟨_, if_pos ?_, ?_⟩
      · rwa [Store.result, SparseMatrix.numColumns_appendRow]
      · rw [Store.result, SparseMatrix.columnAt_appendRow _ _ (h.matrix.sorted_row k) hj]
        cases (s.matrix.rowAt k).get? j with
        | none => exact hcolumn
        | some x =>
          -- the entry of the copy is in the new row, and so it is left out
          rw [Option.elim_some, IndexMap.push, List.filter_append, hcolumn]
          simp [h.aligned.rows, numConstraints]
    | _ => cases happends
  · cases hv

/-! ### In step -/

theorem Sound.fills_result (h : s.Sound) (hin : s.InRange e.indices) : Fills s (s.result e) e := by
  have ht := h.aligned.result e
  have hlast : ∀ {γ : Type} {xs : Array γ} {n : Nat} (x : γ), xs.size = n →
      (xs.push x)[n]? = some x := fun x hsize => hsize ▸ Array.getElem?_push_size
  cases e with
  | addVariable =>
    refine ⟨ht.read_eq (hlast _ h.aligned.lower), ht.read_eq (hlast _ h.aligned.upper),
      ht.read_eq (hlast _ rfl), fun i hi => ht.read_eq ?_⟩
    have hj : s.numVariables < (s.result .addVariable).numVariables := by
      simp [Store.result, numVariables]
    exact (if_pos ⟨hi, hj⟩).trans
      (congrArg some (h.matrix.entry_of_le_column (Nat.le_of_eq h.aligned.columns) i))
  | addConstraint x b =>
    refine ⟨ht.read_eq (hlast _ rfl), ht.read_eq (hlast _ h.aligned.rhs),
      fun j hj => ht.read_eq ?_⟩
    have hi : s.numConstraints < (s.result (.addConstraint x b)).numConstraints := by
      simp [Store.result, numConstraints]
    refine (if_pos ⟨hi, hj⟩).trans (congrArg some ?_)
    rw [Store.result, SparseMatrix.entry_addRow]
    exact s.matrix.entry_of_le_row (Nat.le_of_eq h.aligned.rows) j
  | copyConstraint i =>
    have hi : i < s.numConstraints := by simpa [Edit.indices] using hin
    -- the original is in range of all vectors, so there are values to copy
    obtain ⟨x, hx, -⟩ := h.aligned.run_fetch (.sense i) (by simpa [Cell.indices] using hi)
    obtain ⟨b, hb, -⟩ := h.aligned.run_fetch (.rhs i) (by simpa [Cell.indices] using hi)
    refine ⟨?_, ?_, fun j hj => ?_⟩
    · rw [h.aligned.read_eq hx]
      refine ht.read_eq ((hlast _ rfl).trans ?_)
      exact congrArg (fun o : Option Sense => some (o.getD .less)) hx
    · rw [h.aligned.read_eq hb]
      refine ht.read_eq ((hlast _ h.aligned.rhs).trans ?_)
      exact congrArg (fun o : Option (Binary f) => some (o.getD 0)) hb
    · have hlt : s.numConstraints < (s.result (.copyConstraint i)).numConstraints := by
        simp [Store.result, numConstraints]
      have hentry : s.value? (.coefficient i j) = some (s.matrix.entry i j) := if_pos ⟨hi, hj⟩
      rw [h.aligned.read_eq hentry]
      refine ht.read_eq ((if_pos ⟨hlt, hj⟩).trans (congrArg some ?_))
      rw [Store.result, SparseMatrix.entry_appendRow]
      exact if_pos h.aligned.rows.symm
  | _ => trivial

theorem Sound.carries (h : s.Sound) (hin : s.InRange e.indices) :
    s.Carries e (e.appends.map s.length) (s.result e) where
  index_eq := rfl
  length := s.length_result e
  written _ _ hw := (h.aligned.result e).read_eq (h.value?_of_writes hin hw)
  kept c hc hw := by
    obtain ⟨b, hb, -⟩ := h.aligned.run_fetch c hc
    rw [h.aligned.read_eq hb]
    exact (h.aligned.result e).read_eq ((h.value?_result hin hc hw).trans hb)
  row happends _ _ := row_result happends
  column happends _ _ := h.column_result happends
  filled := h.fills_result hin

/-- A store is settled by its lengths and its cells. -/
theorem Sound.eq_of_read (h : s.Sound) (ht : t.Sound) (hlength : ∀ a, t.length a = s.length a)
    (hread : ∀ {β : Type} (c : Cell f β), t.read c = s.read c) : t = s := by
  have hvalue : ∀ {β : Type} (c : Cell f β), t.value? c = s.value? c := by
    intro β c
    refine Option.ext fun b => ⟨fun hb => ?_, fun hb => ?_⟩
    · exact h.aligned.value?_eq ((hread c).symm.trans (ht.aligned.read_eq hb))
    · exact ht.aligned.value?_eq ((hread c).trans (h.aligned.read_eq hb))
  have hmatrix : t.matrix = s.matrix := by
    -- what a row and a column list is settled by the entries, and these are cells
    apply ht.matrix.ext_entry h.matrix
    · rw [ht.aligned.rows, h.aligned.rows]
      exact hlength .row
    · rw [ht.aligned.columns, h.aligned.columns]
      exact hlength .column
    · intro i j hi hj
      rw [ht.aligned.rows] at hi
      rw [ht.aligned.columns] at hj
      have hentry : t.value? (.coefficient i j) = some (t.matrix.entry i j) := if_pos ⟨hi, hj⟩
      have hsame := (hvalue (.coefficient i j)).symm.trans hentry
      rw [value?] at hsame
      split at hsame
      · exact (Option.some.inj hsame).symm
      · cases hsame
  have hsenses : t.senses = s.senses := Array.ext_getElem? fun i => hvalue (.sense i)
  have hrhs : t.rhs = s.rhs := Array.ext_getElem? fun i => hvalue (.rhs i)
  have hlower : t.lower = s.lower := Array.ext_getElem? fun j => hvalue (.lower j)
  have hupper : t.upper = s.upper := Array.ext_getElem? fun j => hvalue (.upper j)
  have hcosts : t.costs = s.costs := Array.ext_getElem? fun j => hvalue (.cost j)
  cases s
  cases t
  cases hmatrix
  cases hsenses
  cases hrhs
  cases hlower
  cases hupper
  cases hcosts
  rfl

/-- Nothing panics. A request is refused exactly when one of its indices is out of range, for the
first of them, and then the store is the same as before; only an edit that goes through changes it,
and then it does what it says and no more. -/
structure InStep (s : Store f) : Prop where
  aligned : s.Aligned
  consistent : s.matrix.Consistent
  refused : ∀ {β : Type} (r : Request f β) refusal, s.firstOut? r.indices = some refusal →
    (perform r).run s = .error (.refused refusal) s
  granted : ∀ {β : Type} (r : Request f β), s.firstOut? r.indices = none →
    ∃ b t, (perform r).run s = .ok b t
  reads : ∀ {β : Type} (r : Request f β) b t, r.Reads → (perform r).run s = .ok b t → t = s
  carries : ∀ e index t, (perform (.edit e)).run s = .ok index t → s.Carries e index t
  column : ∀ j v t, (perform (.coefficients j)).run s = .ok v t →
    v.Proper s.numConstraints ∧ ∀ i < s.numConstraints, s.read (.coefficient i j) = .ok (v.value i)
  settled : ∀ t : Store f, t.Reachable → (∀ a, t.length a = s.length a) →
    (∀ {β : Type} (c : Cell f β), t.read c = s.read c) → t = s

theorem Sound.inStep (h : s.Sound) : s.InStep where
  aligned := h.aligned
  consistent := h.matrix.consistent
  refused _ _ := run_perform_of_out
  granted r hout := by
    have hin := firstOut?_eq_none_iff.mp hout
    by_cases hreads : r.Reads
    · obtain ⟨b, hrun⟩ := h.aligned.exists_run_reads hreads hin
      exact ⟨b, s, hrun⟩
    · cases r with
      | edit e => exact ⟨_, _, h.aligned.run_apply hin⟩
      | _ => exact absurd trivial hreads
  reads r b t hreads hrun := by
    cases hout : s.firstOut? r.indices with
    | some refusal => cases (run_perform_of_out hout).symm.trans hrun
    | none =>
      obtain ⟨b', hrun'⟩ := h.aligned.exists_run_reads hreads (firstOut?_eq_none_iff.mp hout)
      cases hrun'.symm.trans hrun
      rfl
  carries e index t hrun := by
    cases hout : s.firstOut? e.indices with
    | some refusal => cases (run_apply_of_out hout).symm.trans hrun
    | none =>
      have hin := firstOut?_eq_none_iff.mp hout
      cases (h.aligned.run_apply hin).symm.trans hrun
      exact h.carries hin
  column j v t hrun := by
    cases hout : s.firstOut? [(.column, j)] with
    | some refusal => cases (run_check_of_out hout _).symm.trans hrun
    | none =>
      have hj : j < s.numVariables := by simpa using firstOut?_eq_none_iff.mp hout
      cases (h.aligned.run_coefficients hj).symm.trans hrun
      have hproper := h.matrix.proper_columnAt j
      rw [h.aligned.rows] at hproper
      refine ⟨hproper, fun i hi => h.aligned.read_eq ((if_pos ⟨hi, hj⟩).trans ?_)⟩
      rw [IndexMap.value, h.matrix.get?_columnAt, SparseMatrix.entry_eq]
  settled _ ht hlength hread := h.eq_of_read ht.sound hlength hread

/-- Every store that can come about is in step, whatever has been refused, copied or appended
before. -/
theorem reachable_inStep (hs : s.Reachable) : s.InStep := hs.sound.inStep

/-- A row with a NaN is copied, then its copy, with a column added in between and refused edits
before and after. -/
theorem reachable_inStep_copies :
    let s : Store .binary64 := (zero 1 1).run [.setCoefficient 0 0 .nan, .setCost 1 1,
      .copyConstraint 0, .addVariable, .copyConstraint 1, .setCoefficient 3 2 1]
    s.Reachable ∧ s.InStep ∧
      (perform (.edit (.setCoefficient 3 2 1))).run s = .error (.refused ⟨.row, 3, 3⟩) s ∧
      (perform (.edit (.setCoefficient 2 2 1))).run s = .error (.refused ⟨.column, 2, 2⟩) s ∧
      (∃ t, (perform (.edit (.copyConstraint 2))).run s = .ok (some 3) t ∧
        t.read (.coefficient 3 0) = .ok .nan ∧ t.read (.coefficient 2 0) = .ok .nan) ∧
      ∃ t, (perform (.edit (.setCoefficient 2 0 (-0)))).run s = .ok none t ∧
        t.read (.coefficient 2 0) = .ok 0 ∧ t.read (.coefficient 1 0) = .ok .nan := by
  intro s
  have hs : s.Reachable := .run (.zero 1 1) _
  have hstep := reachable_inStep hs
  refine ⟨hs, hstep, hstep.refused (.edit (.setCoefficient 3 2 1)) _ (by decide +kernel),
    hstep.refused (.edit (.setCoefficient 2 2 1)) _ (by decide +kernel), ?_, ?_⟩
  · obtain ⟨index, t, ht⟩ := hstep.granted (.edit (.copyConstraint 2)) (by decide +kernel)
    have hcarries := hstep.carries _ _ _ ht
    obtain rfl : index = some 3 := hcarries.index_eq
    refine ⟨t, ht, (hcarries.filled.2.2 0 (by decide +kernel)).trans (by decide +kernel), ?_⟩
    refine (hcarries.kept (.coefficient 2 0) (by decide +kernel) fun _ hx => nomatch hx).trans ?_
    decide +kernel
  · obtain ⟨index, t, ht⟩ := hstep.granted (.edit (.setCoefficient 2 0 (-0))) (by decide +kernel)
    have hcarries := hstep.carries _ _ _ ht
    obtain rfl : index = none := hcarries.index_eq
    refine ⟨t, ht, hcarries.written _ _ (.coefficient 2 0 (-0)), ?_⟩
    refine (hcarries.kept (.coefficient 1 0) (by decide +kernel) fun _ hx => nomatch hx).trans ?_
    decide +kernel

end Store

end StandardLp
