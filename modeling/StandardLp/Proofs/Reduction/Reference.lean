import StandardLp.Proofs.Reduction.Reachable

/-!
The reduction of a program in closed form. With `m` rows in the plan, `n` variables at first and
`b` variables with bounds to enforce, there are `n + b + m` columns:

* columns `0, …, n - 1` hold what the rows of the plan store;
* column `n + t` is the opposite of the column of the `t`-th bounded variable;
* column `n + b + i` is the slack of row `i`.
-/

namespace StandardLp

variable {f : Format}

namespace LinearProgram

variable (p : LinearProgram f)

/-- The bounded variables, in increasing order, and the columns of their negative parts. -/
def negativeParts : IndexMap Nat := ⟨p.boundedVars.zipIdx.map fun e => (e.1, p.numVariables + e.2)⟩

def standardNumVariables : Nat := p.numVariables + p.boundedVars.length + p.plan.length

/-- What row `i`, which is made from `r`, stores at column `c`. -/
def standardStored (i : Nat) (r : RowOrigin) (c : Nat) : Option (Binary f) :=
  if c < p.numVariables then p.storedAt r c
  else if c < p.numVariables + p.boundedVars.length then
    p.boundedVars[c - p.numVariables]?.bind fun j => (p.storedAt r j).map (- ·)
  else if c = p.numVariables + p.boundedVars.length + i then some (p.sideOf r).slack
  else none

def standardMatrix : SparseMatrix (Binary f) :=
  .tabulate p.plan.length p.standardNumVariables fun i c =>
    p.plan[i]?.bind fun r => p.standardStored i r c

def standardVars : Array (Variable f) :=
  p.vars.map (fun v => if v.isBounded then v.freed else v) ++
    (p.boundedVars.map fun j => { Variable.nonnegative with cost := -p.costOf j }).toArray ++
    Array.replicate p.plan.length .nonnegative

def standardProgram : LinearProgram f where
  matrix := p.standardMatrix
  constraints := (p.plan.map fun r => ⟨.equal, p.rhsOf r⟩).toArray
  vars := p.standardVars

def standardBasis : Array Nat :=
  ((List.range p.plan.length).map (p.numVariables + p.boundedVars.length + ·)).toArray

def standardForm : StandardForm f where
  columns := p.standardMatrix.toColumns
  rhs := (p.plan.map p.rhsOf).toArray
  cost := p.vars.map (·.cost) ++ (p.boundedVars.map fun j => -p.costOf j).toArray ++
    Array.replicate p.plan.length 0
  numConstraints := p.plan.length
  numVariables := p.standardNumVariables
  slackBasis := p.standardBasis

/-! ### The negative parts -/

theorem boundedVars_pairwise : p.boundedVars.Pairwise (· < ·) :=
  List.Pairwise.filter _ List.pairwise_lt_range

theorem negativeParts_eq_allot :
    p.negativeParts = Reduction.allot .empty p.numVariables p.boundedVars := by
  have hentries := Reduction.entries_allot_empty p.numVariables p.boundedVars_pairwise
  cases hallot : Reduction.allot .empty p.numVariables p.boundedVars with
  | mk l =>
    rw [hallot] at hentries
    exact congrArg IndexMap.mk hentries.symm

@[simp] theorem size_negativeParts : p.negativeParts.size = p.boundedVars.length := by
  simp [negativeParts, IndexMap.size]

theorem mem_negativeParts {j t : Nat} (h : p.boundedVars[t]? = some j) :
    (j, p.numVariables + t) ∈ p.negativeParts.entries :=
  List.mem_map.mpr ⟨(j, t), List.mk_mem_zipIdx_iff_getElem?.mpr h, rfl⟩

theorem isSome_get?_negativeParts {j : Nat} {v : Variable f} (hv : p.vars[j]? = some v) :
    (p.negativeParts.get? j).isSome = v.isBounded := by
  rw [Bool.eq_iff_iff, negativeParts_eq_allot, Reduction.isSome_get?_allot_empty,
    mem_boundedVars, hv]
  simp

end LinearProgram

namespace Reduction.Depicts

variable {p : LinearProgram f} {s : Reduction f}

section Final

variable (h : Depicts p (p.stageAt .slacksAdded) s) (hsplits : s.splits = p.negativeParts)
include h hsplits

theorem get?_splits_final {j t : Nat} (ht : p.boundedVars[t]? = some j) :
    s.splits.get? j = some (p.numVariables + t) := by
  rw [IndexMap.get?_eq_some_iff h.allotment.sorted, hsplits]
  exact p.mem_negativeParts ht

theorem stored_final {i c : Nat} {r : RowOrigin} (hr : p.plan[i]? = some r)
    (hc : c < p.standardNumVariables) :
    s.program.matrix.stored i c = p.standardStored i r c := by
  have hsize : s.splits.size = p.boundedVars.length := hsplits ▸ p.size_negativeParts
  unfold LinearProgram.standardNumVariables at hc
  unfold LinearProgram.standardStored
  -- the columns are those of `p`, then the negative parts, then the slacks
  by_cases hgiven : c < p.numVariables
  · rw [if_pos hgiven]
    exact h.stored_given i r hr c hgiven
  · by_cases hnegative : c < p.numVariables + p.boundedVars.length
    · obtain ⟨t, rfl⟩ : ∃ t, c = p.numVariables + t := ⟨c - p.numVariables, by omega⟩
      have ht : p.boundedVars[t]? = some p.boundedVars[t] :=
        List.getElem?_eq_getElem (by omega)
      have hmem := (p.mem_boundedBelow.mp (List.mem_of_getElem? ht)).1
      rw [if_neg hgiven, if_pos hnegative, Nat.add_sub_cancel_left, ht, Option.bind_some,
        ← h.stored_given i r hr _ hmem, h.stored_negative _ _ (h.get?_splits_final hsplits ht) i]
      rfl
    · obtain ⟨t, rfl⟩ : ∃ t, c = p.numVariables + p.boundedVars.length + t :=
        ⟨c - (p.numVariables + p.boundedVars.length), by omega⟩
      have ht : t < p.plan.length := by omega
      have hslack := h.stored_slack t _ ht (List.getElem?_eq_getElem ht) i
      rw [hsize] at hslack
      rw [if_neg hgiven, if_neg hnegative, hslack]
      by_cases hit : i = t
      · subst hit
        rw [List.getElem?_eq_getElem ht, Option.some.injEq] at hr
        rw [if_pos rfl, if_pos rfl, hr]
      · rw [if_neg hit, if_neg (by omega)]

theorem matrix_eq : s.program.matrix = p.standardMatrix := by
  have hrows : s.program.matrix.numRows = p.plan.length :=
    h.sound.shaped.rows.trans h.numConstraints
  have hcolumns : s.program.matrix.numColumns = p.standardNumVariables := by
    rw [h.sound.shaped.columns, h.numVariables, hsplits, p.size_negativeParts]
    rfl
  have heq := h.sound.matrix.eq_tabulate
    (g := fun i c => p.plan[i]?.bind fun r => p.standardStored i r c) ?_
  · rw [hrows, hcolumns] at heq
    exact heq
  · intro i c hi hc
    have hr : p.plan[i]? = some _ := List.getElem?_eq_getElem (hrows ▸ hi)
    rw [h.stored_final hsplits hr (hcolumns ▸ hc), hr, Option.bind_some]

theorem vars_eq : s.program.vars = p.standardVars := by
  have hsize : s.splits.size = p.boundedVars.length := hsplits ▸ p.size_negativeParts
  have hcount : s.program.vars.size = p.numVariables + s.splits.size + p.plan.length :=
    h.numVariables
  have hn : p.vars.size = p.numVariables := rfl
  apply Array.ext_getElem?
  intro c
  simp only [LinearProgram.standardVars, Array.getElem?_append, Array.size_append,
    Array.size_map, List.size_toArray, List.length_map, Array.getElem?_map,
    List.getElem?_toArray, List.getElem?_map, Array.getElem?_replicate, hn]
  by_cases hgiven : c < p.numVariables
  · have hv : p.vars[c]? = some p.vars[c] := Array.getElem?_eq_getElem hgiven
    rw [if_pos (by omega), if_pos hgiven, h.var_given c _ hv, hsplits,
      p.isSome_get?_negativeParts hv, hv]
    simp [LinearProgram.stageAt]
  · by_cases hnegative : c < p.numVariables + p.boundedVars.length
    · obtain ⟨t, rfl⟩ : ∃ t, c = p.numVariables + t := ⟨c - p.numVariables, by omega⟩
      have ht : p.boundedVars[t]? = some p.boundedVars[t] :=
        List.getElem?_eq_getElem (by omega)
      obtain ⟨hlt, v, hv, hbounded⟩ := p.mem_boundedBelow.mp (List.mem_of_getElem? ht)
      have hget := h.get?_splits_final hsplits ht
      have hfreed := h.var_given _ v hv
      rw [if_pos hnegative, if_neg hgiven, Nat.add_sub_cancel_left, ht,
        h.var_negative _ _ _ hget hfreed]
      simp [LinearProgram.stageAt, hget, Variable.freed, LinearProgram.costOf, hv]
    · rw [if_neg (by omega)]
      by_cases hslack : c - (p.numVariables + p.boundedVars.length) < p.plan.length
      · have hnonnegative := h.var_slack _ hslack
        rw [hsize, Nat.add_sub_cancel' (by omega)] at hnonnegative
        rw [if_pos hslack, hnonnegative]
      · rw [if_neg hslack, Array.getElem?_eq_none (by omega)]

theorem program_eq : s.program = p.standardProgram := by
  have hconstraints := h.constraints_final
  cases hprogram : s.program with
  | mk matrix constraints vars =>
    have hmatrix := h.matrix_eq hsplits
    have hvars := h.vars_eq hsplits
    rw [hprogram] at hmatrix hconstraints hvars
    exact LinearProgram.mk.injEq .. |>.mpr ⟨hmatrix, hconstraints, hvars⟩

theorem slackBasis_eq : s.slackBasis = p.standardBasis := by
  have hlist := h.slackBasis
  rw [hsplits, p.size_negativeParts] at hlist
  exact Array.toList_inj.mp hlist

theorem form_eq : s.form = p.standardForm := by
  have hprogram := h.program_eq hsplits
  have hbasis := h.slackBasis_eq hsplits
  have hcost : p.standardVars.map (·.cost) = p.standardForm.cost := by
    have hkept : ∀ v : Variable f, (if v.isBounded then v.freed else v).cost = v.cost := by
      intro v
      split <;> rfl
    simp [LinearProgram.standardVars, LinearProgram.standardForm, Function.comp_def, hkept,
      Variable.nonnegative]
  have hrows : p.standardProgram.numConstraints = p.plan.length := by
    simp [LinearProgram.standardProgram, LinearProgram.numConstraints]
  have hcolumns : p.standardProgram.numVariables = p.standardNumVariables := by
    simp [LinearProgram.standardProgram, LinearProgram.numVariables, LinearProgram.standardVars,
      LinearProgram.standardNumVariables, Nat.add_assoc]
  rw [form, hprogram, hbasis, hrows, hcolumns, LinearProgram.standardForm, StandardForm.mk.injEq]
  refine ⟨rfl, ?_, hcost, rfl, rfl, rfl⟩
  simp [LinearProgram.standardProgram, Function.comp_def]

end Final

end Reduction.Depicts

namespace Reduction

/-- The reduction of a program without splits by hand always succeeds, and it yields the closed
form in every part: the reduced program, the negative parts, the basis and what is exported. -/
theorem reduce_eq_standardForm {p : LinearProgram f} (hp : p.Reachable) (check : Bool) :
    ∃ s, (reduce check).run (start p) = .ok p.standardBasis s ∧ s.program = p.standardProgram ∧
      s.splits = p.negativeParts ∧ s.slackBasis = p.standardBasis ∧
      s.finished.1 = .ok p.standardForm := by
  obtain ⟨s, hrun, hphase, hs, hsplits⟩ := run_reduce (depicts_start hp.sound) rfl check
  replace hsplits : s.splits = p.negativeParts := hsplits.trans p.negativeParts_eq_allot.symm
  have hbasis := hs.slackBasis_eq hsplits
  refine ⟨s, hbasis ▸ hrun, hs.program_eq hsplits, hsplits, hbasis, ?_⟩
  rw [finished, run_finish hphase, hs.form_eq hsplits]

/-- An equality in one variable with an upper bound. -/
theorem reduce_eq_standardForm_upper :
    let p : LinearProgram .binary64 := (((LinearProgram.zero 1 1).edited (.setSense 0 .equal)).edited
      (.setCoefficient 0 0 1)).edited (.setUpper 0 1)
    p.plan = [.given 0, .copy 0, .bound .upper 0] ∧ p.negativeParts.entries = [(0, 1)] ∧
      p.standardBasis = #[2, 3, 4] ∧
      ∃ s, (reduce true).run (start p) = .ok p.standardBasis s ∧ s.program = p.standardProgram ∧
        s.splits = p.negativeParts ∧ s.slackBasis = p.standardBasis ∧
        s.finished.1 = .ok p.standardForm := by
  intro p
  have hp : p.Reachable := .edited (.edited (.edited (.zero 1 1) _) _) _
  refine ⟨by decide +kernel, by decide +kernel, by decide +kernel, ?_⟩
  exact reduce_eq_standardForm hp true

end Reduction

end StandardLp
