import StandardLp.Proofs.Meaning.Points
import StandardLp.Proofs.Reduction.Consistent
import StandardLp.Proofs.Sparse.Transpose

/-!
What a solver receives. The parts of an exported standard form fit together, and they say what the
program says: although the export is made from the columns and a coefficient of the program is read
from its row, both give the same number.
-/

namespace StandardLp

variable {f : Format}

namespace StandardForm

/-- The parts of a standard form fit together. The slacks come in the order of their rows, so no
column is the slack of two rows. -/
structure Coherent (F : StandardForm f) : Prop where
  size_rhs : F.rhs.size = F.numConstraints
  size_cost : F.cost.size = F.numVariables
  size_slackBasis : F.slackBasis.size = F.numConstraints
  packed : F.columns.Packed F.numVariables
  nonzero : ∀ x ∈ F.columns.values, (x == 0) = false
  column : ∀ k, k < F.numVariables → ∃ v : SparseVector (Binary f),
    F.columns.vector? k = some v.entries ∧ v.Proper F.numConstraints
  slack_lt : ∀ k ∈ F.slackBasis, k < F.numVariables
  slack_increasing : F.slackBasis.toList.Pairwise (· < ·)

/-- A standard form says what the program says, number by number. -/
structure Presents (F : StandardForm f) (p : LinearProgram f) : Prop where
  numConstraints : F.numConstraints = p.numConstraints
  numVariables : F.numVariables = p.numVariables
  numNonzeros : F.columns.numNonzeros = p.numNonzeros
  coefficient : ∀ i k, i < F.numConstraints → k < F.numVariables →
    p.coefficient i k = .ok (F.coefficient i k)
  rhs : ∀ i, i < F.numConstraints →
    ∃ c, p.constraintAt i = .ok c ∧ F.rhs[i]? = some c.rhs
  cost : ∀ k, k < F.numVariables → ∃ v, p.variableAt k = .ok v ∧ F.cost[k]? = some v.cost

end StandardForm

namespace Reduction

variable {p : LinearProgram f} {s s' : Reduction f} {F : StandardForm f}

theorem finished_eq_ok (h : s.finished = (.ok F, s')) :
    s.phase = .slacksAdded ∧ F = s.form ∧ s'.program = s.program := by
  by_cases hphase : s.phase = .slacksAdded
  · rw [finished, run_finish hphase] at h
    cases h
    exact ⟨hphase, rfl, rfl⟩
  · rw [finished, finish, run_enter_of_ne hphase] at h
    cases h

theorem presents_form (h : s.program.Sound) : s.form.Presents s.program where
  numConstraints := rfl
  numVariables := rfl
  numNonzeros := s.program.matrix.numNonzeros_toColumns.trans h.matrix.numNonzeros_transpose
  coefficient i k hi hk := by
    rw [form_coefficient h hk]
    exact s.program.coefficient_eq (h.shaped.rows.symm ▸ hi) (h.shaped.columns.symm ▸ hk)
  rhs i hi := by
    have hc : s.program.constraints[i]? = some _ := Array.getElem?_eq_getElem hi
    refine ⟨_, s.program.constraintAt_eq hc, ?_⟩
    rw [form, Array.getElem?_map, hc]
    rfl
  cost k hk := by
    have hv : s.program.vars[k]? = some _ := Array.getElem?_eq_getElem hk
    refine ⟨_, s.program.variableAt_eq hv, ?_⟩
    rw [form, Array.getElem?_map, hv]
    rfl

theorem Depicts.coherent (h : Depicts p (p.stageAt .slacksAdded) s) : s.form.Coherent where
  size_rhs := Array.size_map
  size_cost := Array.size_map
  size_slackBasis := h.size_slackBasis.trans h.numConstraints.symm
  packed := by
    have hpacked := s.program.matrix.packed_toColumns
    rwa [h.sound.shaped.columns] at hpacked
  nonzero x hx := by
    obtain ⟨i, j, hstored⟩ := h.sound.matrix.exists_stored_of_mem_values hx
    exact h.sound.matrix.nonzero i j x hstored
  column k hk := by
    have hproper := h.sound.matrix.proper_columnAt k
    rw [h.sound.shaped.rows] at hproper
    exact ⟨_, s.program.matrix.vector?_toColumns (h.sound.shaped.columns.symm ▸ hk), hproper⟩
  slack_lt k hk := by
    obtain ⟨i, hi, hget⟩ := Array.mem_iff_getElem.mp hk
    have hslack : s.form.slackBasis[i]? = some k := by rw [Array.getElem?_eq_getElem hi, hget]
    obtain ⟨hlt, rfl⟩ := h.getElem?_slackBasis.mp hslack
    have hcount : s.form.numVariables = p.numVariables + s.splits.size + p.plan.length :=
      h.numVariables
    exact hcount ▸ Nat.add_lt_add_left hlt _
  slack_increasing := by
    have hbasis : s.form.slackBasis.toList = _ := h.slackBasis
    rw [hbasis, List.pairwise_map]
    exact List.pairwise_lt_range.imp fun hij => Nat.add_lt_add_left hij _

/-- Whatever was called on the way, a reduction that can be finished hands over a coherent standard
form of the program that it leaves behind. -/
theorem run_finished_presents (hp : p.Reachable) (calls : List Call)
    (h : ((start p).run calls).finished = (.ok F, s')) :
    F.Coherent ∧ F.Presents s'.program ∧ s'.program = ((start p).run calls).program := by
  have hreduces := (reduces_start hp.sound).run calls
  obtain ⟨hphase, rfl, hprogram⟩ := finished_eq_ok h
  have hs := hreduces.depicts_of_phase hphase
  exact ⟨hs.coherent, hprogram ▸ presents_form hs.sound, hprogram⟩

/-- The coefficient is NaN and so is its opposite, and the second split is one by hand of a negative
part. -/
theorem run_finished_presents_nan :
    let p : LinearProgram .binary64 :=
      ((LinearProgram.zero 1 1).edited (.setCoefficient 0 0 .nan)).edited (.setLower 0 1)
    let s := (start p).run
      [.splitEqualities, .enforceBounds, .split 1, .fillNegatives, .addSlacks]
    s.finished.1 = .ok s.form ∧ s.slackBasis = #[3, 4] ∧ s.form.Coherent ∧
      s.form.Presents s.finished.2.program := by
  intro p s
  have hp : p.Reachable := .edited (.edited (.zero 1 1) _) _
  have hfinished : s.finished = (.ok s.form, s.finished.2) := by decide +kernel
  obtain ⟨hcoherent, hpresents, -⟩ := run_finished_presents hp _ hfinished
  exact ⟨congrArg Prod.fst hfinished, by decide +kernel, hcoherent, hpresents⟩

end Reduction

end StandardLp
