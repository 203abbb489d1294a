import StandardLp.Proofs.Meaning.Solutions

/-!
Bounds of programs that were built from their data. A builder accepts a pair of bounds only if it
leaves room for a number, so a bound is finite or infinite on its own side, and the bounds that
become rows are finite. All numbers that are exported are finite then.
-/

namespace StandardLp

variable {f : Format}

/-! ### Admissible bounds -/

namespace Variable

variable {v : Variable f}

theorem admissible_zero_infinity : admissible (0 : Binary f) .infinity = true := by
  have hle : (0 : Binary f) ≤ .infinity :=
    ⟨decide_eq_false (Nat.not_lt_zero _), Binary.isNaN_infinity, Int.natCast_nonneg _⟩
  have hlower : ((0 : Binary f) == .infinity) = false := by
    refine Bool.eq_false_iff.mpr fun h => ?_
    have hmagnitude := congrArg Binary.magnitude ((Binary.beq_infinity_iff _).mp h)
    exact Nat.ne_of_lt f.infinityCode_pos hmagnitude
  have hupper : ((.infinity : Binary f) == -.infinity) = false := by
    refine Bool.eq_false_iff.mpr fun h => ?_
    have hsign := congrArg Binary.negative ((Binary.beq_neg_infinity_iff _).mp h)
    exact Bool.false_ne_true hsign
  rw [admissible, decide_eq_true hle, hlower, hupper]
  rfl

theorem lower_cases (h : admissible v.lower v.upper = true) :
    v.lower.isFinite = true ∨ v.lower = -.infinity := by
  simp only [admissible, Bool.and_eq_true, Bool.not_eq_true', decide_eq_true_eq] at h
  obtain ⟨⟨hle, hlower⟩, -⟩ := h
  obtain hfinite | hinf | hinf := Binary.isFinite_or_infinite hle.1
  · exact .inl hfinite
  · rw [(Binary.beq_infinity_iff _).mpr hinf] at hlower
    cases hlower
  · exact .inr hinf

theorem upper_cases (h : admissible v.lower v.upper = true) :
    v.upper.isFinite = true ∨ v.upper = .infinity := by
  simp only [admissible, Bool.and_eq_true, Bool.not_eq_true', decide_eq_true_eq] at h
  obtain ⟨⟨hle, -⟩, hupper⟩ := h
  obtain hfinite | hinf | hinf := Binary.isFinite_or_infinite hle.2.1
  · exact .inl hfinite
  · exact .inr hinf
  · rw [(Binary.beq_neg_infinity_iff _).mpr hinf] at hupper
    cases hupper

theorem lowerIsInfinite_iff (h : admissible v.lower v.upper = true) :
    v.lowerIsInfinite = true ↔ ¬ v.lower.isFinite = true := by
  rw [lowerIsInfinite, Binary.beq_neg_infinity_iff]
  constructor
  · intro hinf hfinite
    rw [hinf, Binary.isFinite_neg, Binary.not_isFinite_infinity] at hfinite
    cases hfinite
  · exact (lower_cases h).resolve_left

theorem upperIsInfinite_iff (h : admissible v.lower v.upper = true) :
    v.upperIsInfinite = true ↔ ¬ v.upper.isFinite = true := by
  rw [upperIsInfinite, Binary.beq_infinity_iff]
  constructor
  · intro hinf hfinite
    rw [hinf, Binary.not_isFinite_infinity] at hfinite
    cases hfinite
  · exact (upper_cases h).resolve_left

/-- The bounds that become rows are those that are finite, less a lower bound of zero. -/
theorem mem_enforcedSides_iff (h : admissible v.lower v.upper = true) {side : Side} :
    side ∈ v.enforcedSides ↔
      (v.bound side).isFinite = true ∧ (side = .lower → v.lowerIsZero = false) := by
  have hlower := lowerIsInfinite_iff h
  have hupper := upperIsInfinite_iff h
  rw [enforcedSides]
  cases hl : v.lowerIsInfinite <;> cases hu : v.upperIsInfinite <;>
    cases hz : v.lowerIsZero <;> cases side <;> simp_all [bound]

end Variable

namespace LinearProgram

variable {p : LinearProgram f}

def Admissible (p : LinearProgram f) : Prop :=
  ∀ ⦃j : ℕ⦄ ⦃v : Variable f⦄, p.vars[j]? = some v → Variable.admissible v.lower v.upper = true

theorem Built.admissible (h : p.Built) : p.Admissible := by
  intro j v hv
  obtain ⟨matrix, senses, rhs, bounds, costs, -, hp⟩ := h.exists_ofParts
  unfold LinearProgram.ofParts at hp
  split at hp
  · cases hp
  · split at hp
    · cases hp
    · split at hp
      · cases hp
      · rename_i hfind
        cases hp
        simp only [Array.getElem?_zipWith_eq_some] at hv
        obtain ⟨b, cost, hb, -, rfl⟩ := hv
        have hmem : (b, j) ∈ bounds.toList.zipIdx := by
          rw [List.mk_mem_zipIdx_iff_getElem?, Array.getElem?_toList]
          exact hb
        simpa using List.find?_eq_none.mp hfind (b, j) hmem

theorem Finite.storedAt (h : p.Finite) {r : RowOrigin} {j : ℕ} {x : Binary f}
    (hx : p.storedAt r j = some x) : x.isFinite = true := by
  cases r with
  | given i => exact h.stored hx
  | copy i => exact h.stored hx
  | bound side k =>
    rw [LinearProgram.storedAt] at hx
    split at hx <;> cases hx
    exact Binary.isFinite_one

theorem Finite.rhsOf (h : p.Finite) (hp : p.Admissible) {r : RowOrigin} (hr : r ∈ p.plan) :
    (p.rhsOf r).isFinite = true := by
  simp only [plan, List.mem_append] at hr
  rcases hr with (hr | hr) | hr
  · obtain ⟨i, c, hc, rfl⟩ := mem_givenRows.mp hr
    rw [LinearProgram.rhsOf, hc]
    exact h.rhs c (Array.mem_of_getElem? hc)
  · obtain ⟨i, c, hc, -, rfl⟩ := mem_copyRows.mp hr
    rw [LinearProgram.rhsOf, hc]
    exact h.rhs c (Array.mem_of_getElem? hc)
  · obtain ⟨j, v, side, hv, hside, rfl⟩ := mem_boundRows.mp hr
    rw [LinearProgram.rhsOf, hv]
    exact ((Variable.mem_enforcedSides_iff (hp hv)).mp hside).1

end LinearProgram

/-! ### The numbers of a reduced program -/

namespace Reduction

variable {p : LinearProgram f} {s : Reduction f}

namespace Depicts

variable {phase : Phase} (h : Depicts p (p.stageAt phase) s)
include h

/-- What was appended has admissible bounds, and freeing a variable keeps them so. -/
theorem admissible (hp : p.Admissible) : s.program.Admissible := by
  intro k u hu
  obtain hv | ⟨hlower, hupper⟩ := h.var_cases hu
  · exact hp hv
  · rw [hlower, hupper]
    exact Variable.admissible_zero_infinity

variable (hfinite : p.Finite)
include hfinite

/-- The induction is on the column, since a negative part can be the opposite of another one. -/
theorem stored_isFinite {i k : ℕ} {x : Binary f}
    (hx : s.program.matrix.stored i k = some x) : x.isFinite = true := by
  induction k using Nat.strong_induction_on generalizing x with
  | _ k ih =>
    have hi : i < (p.stageAt phase).rows.length := by
      have hrow := h.sound.matrix.lt_numRows
        ((h.sound.matrix.get?_columnAt i k).trans hx)
      rwa [h.sound.shaped.rows, h.numConstraints] at hrow
    have hk : k < s.program.numVariables := by
      have hcolumn := h.sound.matrix.lt_numColumns hx
      rwa [h.sound.shaped.columns] at hcolumn
    obtain hgiven | ⟨j, hj⟩ | ⟨t, ht, rfl⟩ := h.column_cases hk
    · rw [h.stored_given i _ (List.getElem?_eq_getElem hi) k hgiven] at hx
      exact hfinite.storedAt hx
    · rw [h.stored_negative j k hj i] at hx
      split at hx
      · obtain ⟨y, hy, rfl⟩ := Option.map_eq_some_iff.mp hx
        exact (Binary.isFinite_neg y).trans (ih j (h.allotment.lt hj) hy)
      · cases hx
    · have hlt := Nat.lt_of_lt_of_le ht (p.slacks_stageAt_le phase)
      rw [h.stored_slack t _ ht (List.getElem?_eq_getElem hlt) i] at hx
      split at hx <;> cases hx
      cases p.sideOf _ with
      | lower => exact Binary.isFinite_one
      | upper => exact Binary.isFinite_one

theorem cost_isFinite {k : ℕ} {v : Variable f} (hv : s.program.vars[k]? = some v) :
    v.cost.isFinite = true := by
  induction k using Nat.strong_induction_on generalizing v with
  | _ k ih =>
    obtain hgiven | ⟨j, hj⟩ | ⟨t, ht, rfl⟩ :=
      h.column_cases (Array.getElem?_eq_some_iff.mp hv).1
    · have hu : p.vars[k]? = some p.vars[k] := Array.getElem?_eq_getElem hgiven
      rw [h.var_given k _ hu, Option.some.injEq] at hv
      have hcost := hfinite.cost _ (Array.mem_of_getElem? hu)
      rw [← hv]
      split
      · exact hcost
      · exact hcost
    · have hlt : j < s.program.vars.size :=
        Nat.lt_trans (h.allotment.lt hj) (h.lt_numVariables hj)
      have hu : s.program.vars[j]? = some s.program.vars[j] := Array.getElem?_eq_getElem hlt
      rw [h.var_negative j k _ hj hu, Option.some.injEq] at hv
      rw [← hv]
      dsimp only
      split
      · exact ih j (h.allotment.lt hj) hu
      · exact Binary.isFinite_zero
    · rw [h.var_slack t ht, Option.some.injEq] at hv
      rw [← hv]
      exact Binary.isFinite_zero

theorem program_finite (hp : p.Admissible) : s.program.Finite where
  coefficient row hrow e he := by
    obtain ⟨i, hi, hget⟩ := Array.mem_iff_getElem.mp hrow
    have hat : s.program.matrix.rowAt i = row := by
      rw [SparseMatrix.rowAt, Array.getElem?_eq_getElem hi, hget]
      rfl
    exact h.stored_isFinite hfinite (h.sound.matrix.mem_rowAt_iff.mp (hat.symm ▸ he))
  rhs c hc := by
    obtain ⟨i, hi, hget⟩ := Array.mem_iff_getElem.mp hc
    have hlt : i < (p.stageAt phase).rows.length := h.numConstraints ▸ hi
    have hconstraint := h.constraint i _ (List.getElem?_eq_getElem hlt)
    rw [Array.getElem?_eq_getElem hi, hget, Option.some.injEq] at hconstraint
    rw [hconstraint]
    exact hfinite.rhsOf hp (p.rows_stageAt_subset phase (List.getElem_mem hlt))
  cost v hv := by
    obtain ⟨k, hk, rfl⟩ := Array.mem_iff_getElem.mp hv
    exact h.cost_isFinite hfinite (Array.getElem?_eq_getElem hk)

end Depicts

theorem form_finite (h : s.program.Sound) (hfinite : s.program.Finite) : s.form.Finite where
  coefficient x hx := by
    obtain ⟨i, j, hstored⟩ := h.matrix.exists_stored_of_mem_values hx
    exact hfinite.stored hstored
  rhs x hx := by
    obtain ⟨c, hc, rfl⟩ := Array.mem_map.mp hx
    exact hfinite.rhs c hc
  cost x hx := by
    obtain ⟨v, hv, rfl⟩ := Array.mem_map.mp hx
    exact hfinite.cost v hv

end Reduction

end StandardLp
