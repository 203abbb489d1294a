import StandardLp.Proofs.Meaning.Bounds

/-!
The exact projection of an exported standard form onto the variables at first. A split takes the
sign from a variable, so what is left of the program are its constraints, its finite bounds other
than a lower bound of zero, and `x ≥ 0` for the variables that were never split.
-/

namespace StandardLp

variable {f : Format}

namespace LinearProgram

/-- What the standard form keeps of a program of which the variables in `splits` were split. -/
structure Relaxed (p : LinearProgram f) (splits : IndexMap Nat) (x : ℕ → ℚ) : Prop where
  rows : p.SatisfiesRows x
  lower : ∀ (j : ℕ) (v : Variable f), p.vars[j]? = some v → v.lower.isFinite = true →
    v.lowerIsZero = false → v.lower.value ≤ x j
  upper : ∀ (j : ℕ) (v : Variable f), p.vars[j]? = some v → v.upper.isFinite = true →
    x j ≤ v.upper.value
  nonneg : ∀ j, j < p.numVariables → splits.get? j = none → 0 ≤ x j

def relaxation (p : LinearProgram f) (splits : IndexMap Nat) :
    Set ((Fin p.numVariables → ℚ) × ℚ) :=
  {q | ∃ x, p.Relaxed splits x ∧ q = (fun j : Fin p.numVariables => x j, p.costAt x)}

variable {p : LinearProgram f} {splits : IndexMap Nat} {x : ℕ → ℚ}

theorem costAt_congr {y : ℕ → ℚ} (h : ∀ j, j < p.numVariables → x j = y j) :
    p.costAt x = p.costAt y :=
  Finset.sum_congr rfl fun j hj => by rw [h j (Finset.mem_range.mp hj)]

theorem Admissible.relaxed_iff (hp : p.Admissible) : p.Relaxed splits x ↔
    (∀ r ∈ p.plan, p.RowHolds r x) ∧
      ∀ j, j < p.numVariables → splits.get? j = none → 0 ≤ x j := by
  rw [forall_rowHolds_iff]
  constructor
  · rintro ⟨hrows, hlower, hupper, hnonneg⟩
    refine ⟨⟨hrows, fun j v hv side hside => ?_⟩, hnonneg⟩
    obtain ⟨hfinite, hzero⟩ := (Variable.mem_enforcedSides_iff (hp hv)).mp hside
    cases side with
    | lower => exact hlower j v hv hfinite (hzero rfl)
    | upper => exact hupper j v hv hfinite
  · rintro ⟨⟨hrows, hbounds⟩, hnonneg⟩
    refine ⟨hrows, fun j v hv hfinite hzero => ?_, fun j v hv hfinite => ?_, hnonneg⟩
    · exact hbounds j v hv .lower
        ((Variable.mem_enforcedSides_iff (hp hv)).mpr ⟨hfinite, fun _ => hzero⟩)
    · refine hbounds j v hv .upper
        ((Variable.mem_enforcedSides_iff (hp hv)).mpr ⟨hfinite, fun h => ?_⟩)
      cases h

end LinearProgram

/-- The numbers that the first `n` columns stand for at the solutions, with the costs of the
solutions. -/
def StandardForm.projection (F : StandardForm f) (splits : IndexMap Nat) (n : ℕ) :
    Set ((Fin n → ℚ) × ℚ) :=
  {q | ∃ y, F.Solves y ∧ q = (fun j : Fin n => Reduction.chainValue splits y j, F.costAt y)}

namespace Reduction

variable {p : LinearProgram f} {s : Reduction f}

theorem Depicts.exists_solves_iff (h : Depicts p (p.stageAt .slacksAdded) s) {x : ℕ → ℚ} :
    (∃ y, s.form.Solves y ∧ ∀ j, j < p.numVariables → chainValue s.splits y j = x j) ↔
      (∀ r ∈ p.plan, p.RowHolds r x) ∧
        ∀ j, j < p.numVariables → s.splits.get? j = none → 0 ≤ x j := by
  constructor
  · rintro ⟨y, hy, hyx⟩
    refine ⟨fun r hr => ?_, fun j hj hnone => ?_⟩
    · exact (LinearProgram.rowHolds_congr hyx).mp (h.rowHolds_of_solves hy r hr)
    · rw [← hyx j hj]
      exact h.chainValue_nonneg hy hj hnone
  · rintro ⟨hrows, hnonneg⟩
    exact h.exists_solves hrows hnonneg

/-- Every run that completes all steps, whatever was split by hand, exports a standard form whose
projection is what is kept of the program, no more and no less. -/
theorem projection_eq_relaxation (hp : p.Built) (hfinite : p.Finite) (calls : List Call)
    (hphase : ((start p).run calls).phase = .slacksAdded) :
    ∃ F, ((start p).run calls).finished.1 = .ok F ∧ F.Finite ∧
      F.projection ((start p).run calls).splits p.numVariables =
        p.relaxation ((start p).run calls).splits := by
  have hreduces := (reduces_start hp.sound).run calls
  generalize (start p).run calls = s at hphase hreduces ⊢
  have h : Depicts p (p.stageAt .slacksAdded) s := hphase ▸ hreduces.depicts
  refine ⟨s.form, ?_, form_finite h.sound (h.program_finite hfinite hp.admissible), ?_⟩
  · rw [finished, run_finish hphase]
  ext q
  constructor
  · rintro ⟨y, hy, rfl⟩
    have hx := (h.exists_solves_iff (x := chainValue s.splits y)).mp ⟨y, hy, fun _ _ => rfl⟩
    exact ⟨chainValue s.splits y, hp.admissible.relaxed_iff.mpr hx, by rw [h.costAt_form]⟩
  · rintro ⟨x, hx, rfl⟩
    obtain ⟨y, hy, hyx⟩ := h.exists_solves_iff.mpr (hp.admissible.relaxed_iff.mp hx)
    refine ⟨y, hy, ?_⟩
    rw [h.costAt_form, LinearProgram.costAt_congr hyx, Prod.mk.injEq]
    exact ⟨funext fun j => (hyx j j.isLt).symm, rfl⟩

/-- An equality in one variable that is split, as is its negative part. -/
theorem projection_eq_relaxation_chain :
    let p : LinearProgram .binary64 := {
      matrix := (SparseMatrix.zero 1 1).edited (.set 0 0 1)
      constraints := #[⟨.equal, 1⟩]
      vars := #[⟨-1, 1, 1⟩] }
    let s := (start p).run [.split 0, .splitEqualities, .split 1, .enforceBounds, .fillNegatives,
      .addSlacks]
    s.splits.entries = [(0, 1), (1, 2)] ∧ ∃ F, s.finished.1 = .ok F ∧ F.Finite ∧
      F.projection s.splits p.numVariables = p.relaxation s.splits := by
  intro p s
  have hm : p.matrix.Reachable := .edited (.zero 1 1) (.set 0 0 1)
  have hbuilt : LinearProgram.ofParts p.matrix #[.equal] #[1] #[(-1, 1)] #[1] = .ok p := by
    decide +kernel
  have hp : p.Built := .ofParts hm hbuilt
  have hfinite : p.Finite := ⟨by decide +kernel, by decide +kernel, by decide +kernel⟩
  exact ⟨by decide +kernel, projection_eq_relaxation hp hfinite _ (by decide +kernel)⟩

end Reduction

end StandardLp
