import StandardLp.Proofs.Reduction.Reachable

/-!
Negative parts. Once they are filled, every negative part is the opposite of its variable, and it
stays so. A variable that is split can be a negative part itself, so the pairs form chains.
-/

namespace StandardLp

namespace IndexMap

variable {α β : Type}

def mapValues (g : α → β) (m : IndexMap α) : IndexMap β := ⟨m.entries.map fun e => (e.1, g e.2)⟩

theorem sorted_mapValues {m : IndexMap α} (h : m.Sorted) (g : α → β) : (m.mapValues g).Sorted :=
  List.pairwise_map.mpr h

theorem get?_mapValues (g : α → β) (m : IndexMap α) (i : Nat) :
    (m.mapValues g).get? i = (m.get? i).map g := by
  obtain ⟨l⟩ := m
  induction l with
  | nil => rfl
  | cons e rest ih =>
    show (⟨(e.1, g e.2) :: rest.map fun e => (e.1, g e.2)⟩ : IndexMap β).get? i = _
    rw [get?_cons, get?_cons]
    by_cases hi : i = e.1
    · rw [if_pos hi, if_pos hi]
      rfl
    · rw [if_neg hi, if_neg hi]
      exact ih

end IndexMap

variable {f : Format}

def Variable.IsNonnegative (v : Variable f) : Prop := v.lower = 0 ∧ v.upper = .infinity

namespace LinearProgram

/-- Variable `k` is the opposite of variable `j`. Where nothing is stored both coefficients are
the positive zero, everywhere else they differ in their sign. -/
structure Opposite (p : LinearProgram f) (j k : Nat) : Prop where
  coefficient : ∀ i, i < p.numConstraints → ∃ x y, p.coefficient i j = .ok x ∧
    p.coefficient i k = .ok y ∧ (y = -x ∨ x = 0 ∧ y = 0)
  isSome_stored : ∀ i, (p.matrix.stored i k).isSome ↔ (p.matrix.stored i j).isSome
  column : ∃ v, p.coefficients j = .ok v ∧ p.coefficients k = .ok (v.mapValues (- ·))
  variableAt : ∃ u v, p.variableAt j = .ok u ∧ p.variableAt k = .ok v ∧ v.cost = -u.cost ∧
    u.IsNonnegative ∧ v.IsNonnegative

end LinearProgram

namespace Reduction

variable {p : LinearProgram f} {s : Reduction f} {j k : Nat}

namespace Depicts

theorem opposite {rows : List RowOrigin} {relaxed : List Nat} {n : Nat}
    (h : Depicts p ⟨rows, relaxed, fun _ => true, n⟩ s) (hk : s.splits.get? j = some k) :
    s.program.Opposite j k := by
  have hkc : k < s.program.numVariables := h.lt_numVariables hk
  have hjk : j < k := h.allotment.lt hk
  have hjc : j < s.program.numVariables := Nat.lt_trans hjk hkc
  have hstored : ∀ i, s.program.matrix.stored i k = (s.program.matrix.stored i j).map (- ·) := by
    intro i
    rw [h.stored_negative j k hk i, if_pos rfl]
  have hcolumn : s.program.matrix.columnAt k = (s.program.matrix.columnAt j).mapValues (- ·) := by
    apply IndexMap.ext_get? (h.sound.matrix.sorted_column k)
      (IndexMap.sorted_mapValues (h.sound.matrix.sorted_column j) _)
    intro i
    rw [IndexMap.get?_mapValues, h.sound.matrix.get?_columnAt, h.sound.matrix.get?_columnAt,
      hstored]
  have hcolumns := h.sound.shaped.columns
  exact {
    coefficient := by
      intro i hi
      have hrow : i < s.program.matrix.numRows := h.sound.shaped.rows ▸ hi
      refine ⟨_, _, s.program.coefficient_eq hrow (hcolumns ▸ hjc),
        s.program.coefficient_eq hrow (hcolumns ▸ hkc), ?_⟩
      rw [SparseMatrix.entry_eq, SparseMatrix.entry_eq, hstored]
      cases s.program.matrix.stored i j with
      | none => exact .inr ⟨rfl, rfl⟩
      | some x => exact .inl rfl
    isSome_stored := by
      intro i
      rw [hstored, Option.isSome_map]
    column := ⟨_, s.program.coefficients_eq (hcolumns ▸ hjc),
      hcolumn ▸ s.program.coefficients_eq (hcolumns ▸ hkc)⟩
    variableAt := by
      have hu : s.program.vars[j]? = some _ := Array.getElem?_eq_getElem hjc
      have hv := h.var_negative j k _ hk hu
      refine ⟨_, _, s.program.variableAt_eq hu, s.program.variableAt_eq hv, rfl, ?_,
        rfl, rfl⟩
      -- the variable is one of the program at first, which has been freed, or a negative part
      obtain hgiven | ⟨i, hi⟩ | ⟨t, ht, heq⟩ := h.column_cases hjc
      · have hfree := h.var_given j p.vars[j] (Array.getElem?_eq_getElem hgiven)
        rw [hk, hu, Option.some.injEq] at hfree
        rw [hfree]
        exact ⟨rfl, rfl⟩
      · have hi' : i < s.program.vars.size := Nat.lt_trans (h.allotment.lt hi) hjc
        have hnegative := h.var_negative i j _ hi (Array.getElem?_eq_getElem hi')
        rw [hu, Option.some.injEq] at hnegative
        rw [hnegative]
        exact ⟨rfl, rfl⟩
      · have := (h.allotment.bounds hk).2
        omega }

end Depicts

theorem Reduces.opposite (h : Reduces p s) (hphase : .negativesFilled ≤ s.phase)
    (hk : s.splits.get? j = some k) : s.program.Opposite j k := by
  obtain ⟨n, -, hfilled⟩ := h.exists_depicts_filled hphase
  exact hfilled.opposite hk

/-- From the moment the negative parts are filled, each of them is the opposite of its variable,
whatever was split before and whatever is called after. -/
theorem run_opposite (hp : p.Reachable) (calls : List Call)
    (hphase : .negativesFilled ≤ ((start p).run calls).phase)
    (hk : ((start p).run calls).splits.get? j = some k) :
    ((start p).run calls).program.Opposite j k :=
  ((reduces_start hp.sound).run calls).opposite hphase hk

/-- A negative part that is itself split, before and after the bounds are enforced. -/
theorem run_opposite_chain :
    let p : LinearProgram .binary64 :=
      (LinearProgram.zero 1 1).edited (.setCoefficient 0 0 1) |>.edited (.setLower 0 1)
    let s := (start p).run
      [.split 0, .splitEqualities, .enforceBounds, .split 1, .fillNegatives, .addSlacks]
    s.program.Opposite 0 1 ∧ s.program.Opposite 1 2 := by
  have hp := ((LinearProgram.Reachable.zero 1 1).edited
    (.setCoefficient 0 0 (1 : Binary .binary64))).edited (.setLower 0 1)
  exact ⟨run_opposite hp _ (by decide +kernel) (by decide +kernel),
    run_opposite hp _ (by decide +kernel) (by decide +kernel)⟩

end Reduction

end StandardLp
