import StandardLp.Proofs.Reduction.Growth
import StandardLp.Proofs.Reduction.Opposite

/-!
Two reductions of one program side by side. In what order variables are split, and between which
steps, decides which columns their negative parts are and nothing else: variables at first,
negative parts of the same variable and slacks of the same row are the same column in both.
-/

namespace StandardLp

namespace IndexMap

variable {α β : Type}

theorem size_eq_of_isSome_get? {m : IndexMap α} {n : IndexMap β} (hm : m.Sorted) (hn : n.Sorted)
    (h : ∀ i, (m.get? i).isSome = (n.get? i).isSome) : m.size = n.size := by
  have hkeys : m.mapValues (fun _ => ()) = n.mapValues (fun _ => ()) := by
    apply ext_get? (sorted_mapValues hm _) (sorted_mapValues hn _)
    intro i
    have hi := h i
    rw [get?_mapValues, get?_mapValues]
    cases hx : m.get? i <;> cases hy : n.get? i <;> simp_all
  have hsize := congrArg size hkeys
  rwa [size, size, mapValues, mapValues, List.length_map, List.length_map] at hsize

end IndexMap

variable {f : Format}

namespace LinearProgram

variable {p q : LinearProgram f} {k l : Nat}

structure SameColumn (p q : LinearProgram f) (k l : Nat) : Prop where
  coefficient : ∀ i, i < p.numConstraints →
    ∃ x, p.coefficient i k = .ok x ∧ q.coefficient i l = .ok x
  coefficients : ∃ v, p.coefficients k = .ok v ∧ q.coefficients l = .ok v
  variableAt : ∃ v, p.variableAt k = .ok v ∧ q.variableAt l = .ok v

theorem Sound.sameColumn (hp : p.Sound) (hq : q.Sound)
    (hrows : p.numConstraints = q.numConstraints) (hk : k < p.numVariables)
    (hstored : ∀ i, p.matrix.stored i k = q.matrix.stored i l) (hvars : p.vars[k]? = q.vars[l]?) :
    p.SameColumn q k l := by
  have hv : p.vars[k]? = some p.vars[k] := Array.getElem?_eq_getElem hk
  have hu : q.vars[l]? = some p.vars[k] := hvars.symm.trans hv
  have hcolumnk : k < p.matrix.numColumns := hp.shaped.columns.symm ▸ hk
  have hcolumnl : l < q.matrix.numColumns :=
    hq.shaped.columns.symm ▸ (Array.getElem?_eq_some_iff.mp hu).1
  have hcolumn : p.matrix.columnAt k = q.matrix.columnAt l := by
    apply IndexMap.ext_get? (hp.matrix.sorted_column k) (hq.matrix.sorted_column l)
    intro i
    rw [hp.matrix.get?_columnAt, hq.matrix.get?_columnAt, hstored]
  refine ⟨fun i hi => ⟨p.matrix.entry i k, ?_, ?_⟩, ⟨p.matrix.columnAt k, ?_, ?_⟩, _,
    p.variableAt_eq hv, q.variableAt_eq hu⟩
  · exact p.coefficient_eq (hp.shaped.rows.symm ▸ hi) hcolumnk
  · rw [SparseMatrix.entry_eq, hstored, ← SparseMatrix.entry_eq]
    exact q.coefficient_eq (hq.shaped.rows.symm ▸ hrows ▸ hi) hcolumnl
  · exact p.coefficients_eq hcolumnk
  · rw [hcolumn]
    exact q.coefficients_eq hcolumnl

end LinearProgram

namespace Reduction

variable {p : LinearProgram f} {s t : Reduction f} {k l : Nat}

/-! ### Columns that correspond -/

/-- Column `k` is to the reduction `s` of `p` what column `l` is to `t`. -/
inductive Corresponds (p : LinearProgram f) (s t : Reduction f) : Nat → Nat → Prop where
  | given {j : Nat} (hj : j < p.numVariables) : Corresponds p s t j j
  | negative {i j k l : Nat} (h : Corresponds p s t i j) (hk : s.splits.get? i = some k)
      (hl : t.splits.get? j = some l) : Corresponds p s t k l
  | slack {i k l : Nat} (hk : s.slackBasis[i]? = some k) (hl : t.slackBasis[i]? = some l) :
      Corresponds p s t k l

section Filled

variable {n m : Nat} (hs : Depicts p ⟨p.plan, p.equalities, fun _ => true, n⟩ s)
  (ht : Depicts p ⟨p.plan, p.equalities, fun _ => true, m⟩ t)
include hs ht

/-- Columns that correspond hold the same. What a negative part holds is the opposite of what its
variable does, so the induction goes along the chain of negative parts. -/
theorem Corresponds.stored_eq (hn : n ≤ p.plan.length) (h : Corresponds p s t k l) (i : Nat) :
    s.program.matrix.stored i k = t.program.matrix.stored i l := by
  induction h with
  | @given j hj =>
    cases hr : p.plan[i]? with
    | some r => rw [hs.stored_given i r hr j hj, ht.stored_given i r hr j hj]
    | none =>
      have hle : p.plan.length ≤ i := List.getElem?_eq_none_iff.mp hr
      rw [SparseMatrix.stored_of_le_row, SparseMatrix.stored_of_le_row]
      · rw [ht.sound.shaped.rows, ht.numConstraints]
        exact hle
      · rw [hs.sound.shaped.rows, hs.numConstraints]
        exact hle
  | negative _ hk hl ih =>
    rw [hs.stored_negative _ _ hk, ht.stored_negative _ _ hl, if_pos rfl, if_pos rfl, ih]
  | @slack a k l hk hl =>
    obtain ⟨ha, rfl⟩ := hs.getElem?_slackBasis.mp hk
    obtain ⟨ha', rfl⟩ := ht.getElem?_slackBasis.mp hl
    have hr : p.plan[a]? = some _ := List.getElem?_eq_getElem (Nat.lt_of_lt_of_le ha hn)
    rw [hs.stored_slack a _ ha hr, ht.stored_slack a _ ha' hr]

/-- A variable at first has lost its bounds if it is split, so it is the same in both reductions if
they split the same variables. -/
theorem Corresponds.vars_eq (h : Corresponds p s t k l)
    (hsplits : ∀ j, j < p.numVariables → (s.splits.get? j).isSome = (t.splits.get? j).isSome) :
    s.program.vars[k]? = t.program.vars[l]? := by
  induction h with
  | @given j hj =>
    have hv : p.vars[j]? = some p.vars[j] := Array.getElem?_eq_getElem hj
    rw [hs.var_given j _ hv, ht.var_given j _ hv, hsplits j hj]
  | @negative i j k l _ hk hl ih =>
    have hi : i < s.program.vars.size := Nat.lt_trans (hs.allotment.lt hk) (hs.lt_numVariables hk)
    have hv : s.program.vars[i]? = some s.program.vars[i] := Array.getElem?_eq_getElem hi
    rw [hs.var_negative i k _ hk hv, ht.var_negative j l _ hl (ih ▸ hv)]
  | slack hk hl =>
    obtain ⟨ha, rfl⟩ := hs.getElem?_slackBasis.mp hk
    obtain ⟨ha', rfl⟩ := ht.getElem?_slackBasis.mp hl
    rw [hs.var_slack _ ha, ht.var_slack _ ha']

end Filled

/-! ### Complete reductions -/

/-- The programs that `s` and `t` have made of `p` differ in the names of the negative parts and in
nothing else. -/
structure Renames (p : LinearProgram f) (s t : Reduction f) : Prop where
  numConstraints : s.program.numConstraints = t.program.numConstraints
  numVariables : s.program.numVariables = t.program.numVariables
  constraints : s.program.constraints = t.program.constraints
  slackBasis : s.slackBasis = t.slackBasis
  given : ∀ j, j < p.numVariables → s.program.SameColumn t.program j j
  slack : ∀ k ∈ s.slackBasis, s.program.SameColumn t.program k k
  negative : ∀ j k l, s.splits.get? j = some k → t.splits.get? j = some l →
    s.program.SameColumn t.program k l

theorem Depicts.renames (hs : Depicts p (p.stageAt .slacksAdded) s)
    (ht : Depicts p (p.stageAt .slacksAdded) t)
    (hsplits : ∀ j, (s.splits.get? j).isSome = (t.splits.get? j).isSome)
    (hgiven : ∀ j k, s.splits.get? j = some k → j < p.numVariables) : Renames p s t := by
  have hsize : s.splits.size = t.splits.size :=
    IndexMap.size_eq_of_isSome_get? hs.allotment.sorted ht.allotment.sorted hsplits
  have hrows : s.program.numConstraints = t.program.numConstraints :=
    hs.numConstraints.trans ht.numConstraints.symm
  have hbasis : s.slackBasis = t.slackBasis := by
    apply Array.toList_inj.mp
    rw [hs.slackBasis, ht.slackBasis, hsize]
  have hcolumn : ∀ {k l}, Corresponds p s t k l → k < s.program.numVariables →
      s.program.SameColumn t.program k l := fun h hk =>
    hs.sound.sameColumn ht.sound hrows hk (h.stored_eq hs ht (Nat.le_refl _))
      (h.vars_eq hs ht fun j _ => hsplits j)
  exact {
    numConstraints := hrows
    numVariables := by rw [hs.numVariables, ht.numVariables, hsize]
    constraints := by rw [hs.constraints_final, ht.constraints_final]
    slackBasis := hbasis
    given := fun j hj =>
      hcolumn (.given hj) (hs.lt_numVariables_of_given (Array.getElem?_eq_getElem hj))
    slack := by
      intro k hk
      obtain ⟨i, hi⟩ := Array.mem_iff_getElem?.mp hk
      obtain ⟨hlt, rfl⟩ := hs.getElem?_slackBasis.mp hi
      refine hcolumn (.slack hi (hbasis ▸ hi)) ?_
      rw [hs.numVariables]
      exact Nat.add_lt_add_left hlt _
    -- only variables of `p` are split, so a negative part is never split in turn
    negative := fun j k l hk hl =>
      hcolumn (.negative (.given (hgiven j k hk)) hk hl) (hs.lt_numVariables hk) }

/-- Two complete reductions of one program that have split the same variables in the end, all of
them variables at first, have made the same program of it up to the names of the negative parts,
whenever and in whatever order the variables were split. -/
theorem run_renames (hp : p.Reachable) {calls calls' : List Call}
    (hphase : ((start p).run calls).phase = .slacksAdded)
    (hphase' : ((start p).run calls').phase = .slacksAdded)
    (hhand : ∀ j, SplitByHand (start p) calls j → j < p.numVariables)
    (hsplits : ∀ j, (((start p).run calls).splits.get? j).isSome =
      (((start p).run calls').splits.get? j).isSome) :
    Renames p ((start p).run calls) ((start p).run calls') := by
  have hs := ((reduces_start hp.sound).run calls).depicts_of_phase hphase
  have ht := ((reduces_start hp.sound).run calls').depicts_of_phase hphase'
  refine hs.renames ht hsplits fun j k hk => ?_
  obtain hj | ⟨-, hj⟩ := (isSome_splits_run hp.sound calls j).mp (by rw [hk]; rfl)
  · exact hhand j hj
  · exact (p.mem_boundedBelow.mp hj).1

/-- Three variables, one of them with bounds. The one reduction splits the last variable at first
and another one late, the other reduction splits both of them late and in the other order. -/
theorem run_renames_late :
    let p : LinearProgram .binary64 :=
      ((LinearProgram.zero 1 3).edited (.setCoefficient 0 0 1)).edited (.setLower 1 1)
    let calls : List Call := [.split 2, .splitEqualities, .enforceBounds, .split 0, .split 2,
      .fillNegatives, .split 1, .addSlacks]
    let calls' : List Call :=
      [.splitEqualities, .enforceBounds, .split 0, .split 2, .fillNegatives, .addSlacks]
    ((start p).run calls).splits.entries = [(0, 5), (1, 4), (2, 3)] ∧
      ((start p).run calls').splits.entries = [(0, 4), (1, 3), (2, 5)] ∧
      Renames p ((start p).run calls) ((start p).run calls') := by
  intro p calls calls'
  have hp : p.Reachable := .edited (.edited (.zero 1 3) _) _
  have hentries : ((start p).run calls).splits.entries = [(0, 5), (1, 4), (2, 3)] := by
    decide +kernel
  have hentries' : ((start p).run calls').splits.entries = [(0, 4), (1, 3), (2, 5)] := by
    decide +kernel
  refine ⟨hentries, hentries', run_renames hp (by decide +kernel) (by decide +kernel) ?_ ?_⟩
  · rintro j ⟨before, after, reply, hcalls, -⟩
    have hmem : Call.split j ∈ calls := hcalls ▸ List.mem_append_right _ List.mem_cons_self
    have hall : ∀ c ∈ calls, c.InRange 3 := by simp [calls, Call.InRange]
    exact hall _ hmem
  · intro j
    rw [IndexMap.get?, IndexMap.get?, hentries, hentries']
    simp only [List.lookup_cons]
    cases j == 0 <;> cases j == 1 <;> cases j == 2 <;> rfl

end Reduction

end StandardLp
