import Mathlib.Algebra.BigOperators.Intervals
import StandardLp.Proofs.Numeric.Value
import StandardLp.Proofs.Program.Sound
import StandardLp.Proofs.Reduction.Plan
import StandardLp.Proofs.Sparse.Export

/-!
Points of programs and of standard forms. All numbers are read as the rationals that they denote,
so a statement about points is one of exact arithmetic. A point has a number for every index, of
which those of the variables matter.
-/

namespace StandardLp

variable {f : Format}

/-- The activity `a` of a row agrees with its right-hand side `b`. -/
def Sense.Holds : Sense → ℚ → ℚ → Prop
  | .equal, a, b => a = b
  | .greater, a, b => b ≤ a
  | .less, a, b => a ≤ b

namespace LinearProgram

variable (p : LinearProgram f)

def activity (i : ℕ) (x : ℕ → ℚ) : ℚ :=
  ∑ j ∈ Finset.range p.numVariables, (p.matrix.entry i j).value * x j

def costAt (x : ℕ → ℚ) : ℚ := ∑ j ∈ Finset.range p.numVariables, (p.costOf j).value * x j

def SatisfiesRows (x : ℕ → ℚ) : Prop :=
  ∀ (i : ℕ) (c : Constraint f), p.constraints[i]? = some c →
    c.sense.Holds (p.activity i x) c.rhs.value

def Feasible (x : ℕ → ℚ) : Prop :=
  p.SatisfiesRows x ∧
    ∀ (j : ℕ) (v : Variable f), p.vars[j]? = some v →
      v.lower.AtLeast (x j) ∧ v.upper.AtMost (x j)

/-- Apart from the bounds, all numbers of the program are finite. -/
structure Finite : Prop where
  coefficient : ∀ row ∈ p.matrix.rows, ∀ e ∈ row.entries, e.2.isFinite
  rhs : ∀ c ∈ p.constraints, c.rhs.isFinite
  cost : ∀ v ∈ p.vars, v.cost.isFinite

theorem Finite.stored {p : LinearProgram f} (h : p.Finite) {i j : ℕ} {x : Binary f}
    (hx : p.matrix.stored i j = some x) : x.isFinite = true := by
  rw [SparseMatrix.stored, SparseMatrix.rowAt] at hx
  cases hrow : p.matrix.rows[i]? with
  | none =>
    rw [hrow] at hx
    cases hx
  | some row =>
    rw [hrow, Option.getD_some] at hx
    obtain ⟨l, l', hl, -⟩ := List.lookup_eq_some_iff.mp hx
    refine h.coefficient row (Array.mem_of_getElem? hrow) (j, x) ?_
    rw [hl]
    simp

end LinearProgram

namespace StandardForm

variable (F : StandardForm f)

/-- The coefficient in row `i` and column `k`, as the exported columns hold it. -/
def coefficient (i k : ℕ) : Binary f := (((F.columns.vector? k).getD []).lookup i).getD 0

def costAt (y : ℕ → ℚ) : ℚ :=
  ∑ k ∈ Finset.range F.numVariables, (F.cost[k]?.getD 0).value * y k

structure Solves (y : ℕ → ℚ) : Prop where
  nonneg : ∀ k, k < F.numVariables → 0 ≤ y k
  row : ∀ i, i < F.numConstraints →
    ∑ k ∈ Finset.range F.numVariables, (F.coefficient i k).value * y k =
      (F.rhs[i]?.getD 0).value

/-- All numbers of the standard form are finite. -/
structure Finite : Prop where
  coefficient : ∀ x ∈ F.columns.values, x.isFinite
  rhs : ∀ x ∈ F.rhs, x.isFinite
  cost : ∀ x ∈ F.cost, x.isFinite

end StandardForm

namespace Reduction

variable {s : Reduction f}

theorem form_coefficient (h : s.program.Sound) {i k : ℕ} (hk : k < s.program.numVariables) :
    s.form.coefficient i k = s.program.matrix.entry i k := by
  have hread := s.program.matrix.vector?_toColumns (h.shaped.columns.symm ▸ hk)
  rw [StandardForm.coefficient, form, hread, SparseMatrix.entry_eq, ← h.matrix.get?_columnAt]
  rfl

theorem form_costAt (y : ℕ → ℚ) : s.form.costAt y = s.program.costAt y := by
  refine Finset.sum_congr rfl fun k _ => ?_
  rw [form, Array.getElem?_map, LinearProgram.costOf]
  cases s.program.vars[k]? with
  | none => rfl
  | some v => rfl

/-- The solutions of the exported form are the nonnegative points at which all rows are equalities. -/
theorem form_solves_iff (h : s.program.Sound) {y : ℕ → ℚ} : s.form.Solves y ↔
    (∀ k, k < s.program.numVariables → 0 ≤ y k) ∧
      ∀ (i : ℕ) (c : Constraint f), s.program.constraints[i]? = some c →
        s.program.activity i y = c.rhs.value := by
  have hactivity : ∀ i, ∑ k ∈ Finset.range s.form.numVariables,
      (s.form.coefficient i k).value * y k = s.program.activity i y := by
    intro i
    refine Finset.sum_congr rfl fun k hk => ?_
    rw [form_coefficient h (Finset.mem_range.mp hk)]
  have hrhs : ∀ (i : ℕ) (c : Constraint f), s.program.constraints[i]? = some c →
      s.form.rhs[i]?.getD 0 = c.rhs := by
    intro i c hc
    rw [form, Array.getElem?_map, hc]
    rfl
  constructor
  · rintro ⟨hnonneg, hrow⟩
    refine ⟨hnonneg, fun i c hc => ?_⟩
    rw [← hactivity, hrow i (Array.getElem?_eq_some_iff.mp hc).1, hrhs i c hc]
  · rintro ⟨hnonneg, hrow⟩
    refine ⟨hnonneg, fun i hi => ?_⟩
    have hc : s.program.constraints[i]? = some _ := Array.getElem?_eq_getElem hi
    rw [hactivity, hrow i _ hc, hrhs i _ hc]

end Reduction

end StandardLp
