import StandardLp.Proofs.Program.Storage
import StandardLp.Proofs.Reduction.Edits
import StandardLp.Proofs.Reduction.Reachable

/-!
A store and the program in it. Each settles the other when the parts of the store have matching
lengths, and whatever is asked of one is answered as by the other and does the same to it. So the
stores that can come about are those of the programs that can, reduced ones included.
-/

namespace StandardLp.Store

open LinearProgram (Cell Edit)

variable {f : Format} {β : Type} {s : Store f} {p : LinearProgram f} {e : Edit f} {i j : Nat}

/-! ### Back and forth -/

@[simp] theorem program_ofProgram (p : LinearProgram f) : (ofProgram p).program = p := by
  have hconstraints : (ofProgram p).program.constraints = p.constraints := by
    apply Array.ext_getElem?
    intro i
    simp only [program, ofProgram, Array.getElem?_zipWith, Array.getElem?_map]
    cases p.constraints[i]? <;> rfl
  have hvars : (ofProgram p).program.vars = p.vars := by
    apply Array.ext_getElem?
    intro j
    simp only [program, ofProgram, Array.getElem?_zipWith, Array.zip, Array.getElem?_map]
    cases p.vars[j]? <;> rfl
  obtain ⟨matrix, constraints, vars⟩ := p
  exact congr (congrArg (LinearProgram.mk matrix) hconstraints) hvars

theorem Aligned.ofProgram_program (h : s.Aligned) : ofProgram s.program = s := by
  obtain ⟨-, hrhs, -, hlower, hupper⟩ := h
  have hsenses : (ofProgram s.program).senses = s.senses := by
    apply Array.ext <;> simp [ofProgram, program, hrhs]
  have hrhs' : (ofProgram s.program).rhs = s.rhs := by
    apply Array.ext <;> simp [ofProgram, program, hrhs]
  have hlower' : (ofProgram s.program).lower = s.lower := by
    apply Array.ext <;> simp [ofProgram, program, hlower, hupper]
  have hupper' : (ofProgram s.program).upper = s.upper := by
    apply Array.ext <;> simp [ofProgram, program, hlower, hupper]
  have hcosts : (ofProgram s.program).costs = s.costs := by
    apply Array.ext <;> simp [ofProgram, program, hlower, hupper]
  obtain ⟨matrix, senses, rhs, lower, upper, costs⟩ := s
  exact congr (congr (congr (congr (congrArg (Store.mk matrix) hsenses) hrhs') hlower') hupper')
    hcosts

theorem Aligned.ofProgram (h : p.Shaped) : (ofProgram p).Aligned := by
  constructor <;> simp [Store.ofProgram, h.rows, h.columns, LinearProgram.numConstraints,
    LinearProgram.numVariables]

theorem Aligned.shaped (h : s.Aligned) : s.program.Shaped := by
  constructor
  · simp [program, LinearProgram.numConstraints, h.rows, h.rhs]
  · simp [program, LinearProgram.numVariables, h.columns, h.lower, h.upper]

@[simp] theorem numConstraints_ofProgram (p : LinearProgram f) :
    (ofProgram p).numConstraints = p.numConstraints := Array.size_map

@[simp] theorem numVariables_ofProgram (p : LinearProgram f) :
    (ofProgram p).numVariables = p.numVariables := Array.size_map

/-! ### Edits -/

section Modify

variable {α γ : Type} {g : α → α} {π : α → γ} {c : γ}

theorem map_modify_of_write (hg : ∀ a, π (g a) = c) (xs : Array α) (i : Nat) :
    (xs.modify i g).map π = (xs.map π).setIfInBounds i c := by
  apply Array.ext_getElem?
  intro k
  simp only [Array.getElem?_map, Array.getElem?_modify, Array.getElem?_setIfInBounds,
    Array.size_map]
  by_cases hk : i = k
  · subst hk
    rw [if_pos rfl, if_pos rfl]
    cases hget : xs[i]? with
    | none => simp [Array.getElem?_eq_none_iff.mp hget]
    | some a => simp [(Array.getElem?_eq_some_iff.mp hget).1, hg]
  · rw [if_neg hk, if_neg hk]

theorem map_modify_of_keep (hg : ∀ a, π (g a) = π a) (xs : Array α) (i : Nat) :
    (xs.modify i g).map π = xs.map π := by
  apply Array.ext_getElem?
  intro k
  simp only [Array.getElem?_map, Array.getElem?_modify]
  split
  · cases xs[k]? <;> simp [hg]
  · rfl

end Modify

theorem apply_of_out (h : p.Shaped) {refusal : IndexError}
    (hout : (ofProgram p).firstOut? e.indices = some refusal) : p.apply e = .error refusal := by
  have hrow {i : Nat} (hout : (ofProgram p).firstOut? [(.row, i)] = some refusal) :
      ¬ i < p.numConstraints ∧ ⟨.row, i, p.numConstraints⟩ = refusal := by
    simpa using hout
  have hcolumn {j : Nat} (hout : (ofProgram p).firstOut? [(.column, j)] = some refusal) :
      ¬ j < p.numVariables ∧ ⟨.column, j, p.numVariables⟩ = refusal := by
    simpa using hout
  have hmodify {j : Nat} (hout : (ofProgram p).firstOut? [(.column, j)] = some refusal)
      (g : Variable f → Variable f) : p.modifyVariable j g = .error refusal := by
    obtain ⟨hj, rfl⟩ := hcolumn hout
    rw [LinearProgram.modifyVariable, Axis.check_bind, if_neg hj]
  cases e with
  | setSense i x =>
    obtain ⟨hi, rfl⟩ := hrow hout
    rw [LinearProgram.apply, LinearProgram.setSense, LinearProgram.modifyConstraint,
      Axis.check_bind, if_neg hi]
    rfl
  | setCoefficient i j b =>
    rw [LinearProgram.apply, LinearProgram.setCoefficient, SparseMatrix.set_eq, h.rows, h.columns]
    -- of two indices that are out of range the row is the first
    rw [Edit.indices, firstOut?_cons, length_row, numConstraints_ofProgram] at hout
    split
    · rename_i hi
      rw [if_pos hi] at hout
      obtain ⟨hj, rfl⟩ := hcolumn hout
      rw [if_neg hj]
      rfl
    · rename_i hi
      rw [if_neg hi] at hout
      cases hout
      rfl
  | setCost j b | setLower j b | setUpper j b =>
    exact congrArg ((none, ·) <$> ·) (hmodify hout _)
  | copyConstraint i =>
    obtain ⟨hi, rfl⟩ := hrow hout
    rw [LinearProgram.apply, LinearProgram.copyConstraint, LinearProgram.constraintAt,
      Array.getElem?_eq_none (Nat.le_of_not_lt hi)]
    rfl
  | addVariable | addConstraint x b => cases hout

theorem exists_apply (h : p.Shaped) (hin : (ofProgram p).InRange e.indices) :
    ∃ q, p.apply e = .ok (e.appends.map (ofProgram p).length, q) ∧
      ofProgram q = (ofProgram p).result e := by
  cases e with
  | setSense i x =>
    have hi : i < p.numConstraints := by simpa [Edit.indices] using hin
    refine ⟨_, congrArg ((none, ·) <$> ·) (p.modifyConstraint_eq _ hi), ?_⟩
    simp [ofProgram, result, map_modify_of_write, map_modify_of_keep]
  | setCoefficient i j b =>
    obtain ⟨hi, hj⟩ : i < p.numConstraints ∧ j < p.numVariables := by
      simpa [Edit.indices] using hin
    rw [← h.rows] at hi
    rw [← h.columns] at hj
    exact ⟨_, congrArg ((none, ·) <$> ·) (p.setCoefficient_eq b hi hj), rfl⟩
  | setCost j b | setLower j b | setUpper j b =>
    have hj : j < p.numVariables := by simpa [Edit.indices] using hin
    refine ⟨_, congrArg ((none, ·) <$> ·) (p.modifyVariable_eq _ hj), ?_⟩
    simp [ofProgram, result, map_modify_of_write, map_modify_of_keep]
  | addVariable =>
    refine ⟨_, congrArg (fun k => Except.ok (some k, p.addVariable.2)) ?_, ?_⟩
    · exact h.columns.trans (numVariables_ofProgram p).symm
    · simp [ofProgram, result, LinearProgram.addVariable, Variable.nonnegative]
  | addConstraint x b =>
    refine ⟨_, congrArg (fun k => Except.ok (some k, (p.addConstraint x b).2)) ?_, ?_⟩
    · exact h.rows.trans (numConstraints_ofProgram p).symm
    · simp [ofProgram, result, LinearProgram.addConstraint]
  | copyConstraint i =>
    have hi : i < p.numConstraints := by simpa [Edit.indices] using hin
    have hget := Array.getElem?_eq_getElem hi
    refine ⟨{ p with
      matrix := p.matrix.appendRow (p.matrix.rowAt i)
      constraints := p.constraints.push p.constraints[i] }, ?_, ?_⟩
    · rw [LinearProgram.apply, p.copyConstraint_eq hget (h.rows.symm ▸ hi), h.rows,
        ← numConstraints_ofProgram]
      rfl
    · simp [ofProgram, result, hget]

/-- An edit of the storage is the edit of the program in it, refusals included. -/
theorem run_apply_ofProgram (h : p.Shaped) (e : Edit f) : (apply e).run (ofProgram p) =
    match p.apply e with
    | .ok (index, q) => .ok index (ofProgram q)
    | .error refusal => .error (.refused refusal) (ofProgram p) := by
  cases hout : (ofProgram p).firstOut? e.indices with
  | some refusal => rw [apply_of_out h hout, run_apply_of_out hout]
  | none =>
    have hin := firstOut?_eq_none_iff.mp hout
    obtain ⟨q, hq, hresult⟩ := exists_apply h hin
    rw [hq, (Aligned.ofProgram h).run_apply hin, ← hresult]

theorem after_ofProgram (h : p.Shaped) (e : Edit f) :
    (ofProgram p).after (.edit e) = ofProgram (p.edited e) := by
  rw [after, perform, run_apply_ofProgram h, LinearProgram.edited]
  cases p.apply e <;> rfl

theorem run_ofProgram (h : p.Shaped) (edits : List (Edit f)) :
    (ofProgram p).run edits = ofProgram (p.run edits) := by
  induction edits generalizing p with
  | nil => rfl
  | cons e rest ih =>
    show ((ofProgram p).after (.edit e)).run rest = ofProgram ((p.edited e).run rest)
    rw [after_ofProgram h]
    exact ih (h.edited e)

/-! ### Reads -/

/-- A vector that holds one entry of every record in a list of records. -/
theorem Field.run_read_map {α δ : Type} {x : Field f α} {π : δ → α} (xs : Array δ)
    (hsize : s.length x.axis = xs.size) (hvalues : x.values s = xs.map π) :
    (x.read i).run s = match xs[i]? with
      | some d => .ok (π d) s
      | none => .error (.refused ⟨x.axis, i, xs.size⟩) s := by
  cases hget : xs[i]? with
  | some d =>
    have hi := (Array.getElem?_eq_some_iff.mp hget).1
    refine Field.run_read (hsize.symm ▸ hi) ?_
    rw [hvalues, Array.getElem?_map, hget]
    rfl
  | none =>
    have hi := Array.getElem?_eq_none_iff.mp hget
    rw [Field.read, run_check_bind, hsize, if_neg (Nat.not_lt.mpr hi)]

theorem read_ofProgram (h : p.Shaped) (c : Cell f β) :
    (ofProgram p).read c = (p.read c).mapError .refused := by
  have hrow : (ofProgram p).length .row = p.constraints.size := numConstraints_ofProgram p
  have hcolumn : (ofProgram p).length .column = p.vars.size := numVariables_ofProgram p
  cases c with
  | sense i | rhs i =>
    rw [read, fetch, Field.run_read_map p.constraints hrow rfl, LinearProgram.read,
      LinearProgram.constraintAt]
    cases p.constraints[i]? <;> rfl
  | coefficient i j =>
    rw [read, fetch, coefficient, run_check_bind, length_row, numConstraints_ofProgram,
      LinearProgram.read, LinearProgram.coefficient, SparseMatrix.get_eq, h.rows, h.columns]
    by_cases hi : i < p.numConstraints
    · rw [if_pos hi, if_pos hi, run_check_bind, length_column, numVariables_ofProgram]
      by_cases hj : j < p.numVariables
      · have hget : p.matrix.get i j = .ok (p.matrix.entry i j) :=
          p.coefficient_eq (h.rows.symm ▸ hi) (h.columns.symm ▸ hj)
        rw [if_pos hj, if_pos hj, run_consult hget]
        rfl
      · rw [if_neg hj, if_neg hj]
        rfl
    · rw [if_neg hi, if_neg hi]
      rfl
  | lower j | upper j | cost j =>
    rw [read, fetch, Field.run_read_map p.vars hcolumn rfl, LinearProgram.read,
      LinearProgram.variableAt]
    cases p.vars[j]? <;> rfl

theorem run_coefficients_ofProgram (h : p.Shaped) (j : Nat) :
    (coefficients j).run (ofProgram p) =
      match p.coefficients j with
      | .ok v => .ok v (ofProgram p)
      | .error refusal => .error (.refused refusal) (ofProgram p) := by
  rw [LinearProgram.coefficients, SparseMatrix.column_eq, h.columns]
  by_cases hj : j < p.numVariables
  · rw [if_pos hj]
    exact (Aligned.ofProgram h).run_coefficients ((numVariables_ofProgram p).symm ▸ hj)
  · rw [if_neg hj, coefficients, run_check_bind, length_column, numVariables_ofProgram, if_neg hj]

/-! ### What can come about -/

theorem ofProgram_zero (m n : Nat) :
    ofProgram (.zero m n) = (zero m n : Store f) := by
  simp [ofProgram, zero, LinearProgram.zero, Variable.nonnegative]

/-- The builders agree, also on what they refuse. -/
theorem ofParts_eq (matrix : SparseMatrix (Binary f)) (senses : Array Sense)
    (rhs : Array (Binary f)) (bounds : Array (Binary f × Binary f)) (costs : Array (Binary f)) :
    ofParts matrix senses rhs bounds costs =
      ofProgram <$> LinearProgram.ofParts matrix senses rhs bounds costs := by
  unfold ofParts LinearProgram.ofParts
  by_cases hrows : senses.size ≠ matrix.numRows ∨ rhs.size ≠ matrix.numRows
  · rw [if_pos hrows, if_pos hrows]
    rfl
  rw [if_neg hrows, if_neg hrows]
  by_cases hcolumns : bounds.size ≠ matrix.numColumns ∨ costs.size ≠ matrix.numColumns
  · rw [if_pos hcolumns, if_pos hcolumns]
    rfl
  rw [if_neg hcolumns, if_neg hcolumns]
  cases bounds.toList.zipIdx.find? fun b => !Variable.admissible b.1.1 b.1.2 with
  | some b => rfl
  | none =>
    have haligned : Aligned ⟨matrix, senses, rhs, bounds.map (·.1), bounds.map (·.2), costs⟩ := by
      constructor <;> simp only [Array.size_map] <;> omega
    have hbounds : (bounds.map (·.1)).zip (bounds.map (·.2)) = bounds := by
      ext <;> simp
    have hview := haligned.ofProgram_program
    rw [program, hbounds] at hview
    exact congrArg Except.ok hview.symm

theorem ofRows_eq (m n : Nat) (rows : Compressed (Binary f))
    (bounds : Array (Binary f × Binary f)) (senses : Array Sense) (rhs costs : Array (Binary f)) :
    ofRows m n rows bounds senses rhs costs =
      ofProgram <$> LinearProgram.ofRows m n rows bounds senses rhs costs := by
  rw [ofRows, LinearProgram.ofRows]
  cases SparseMatrix.ofRows m n rows with
  | error e => rfl
  | ok matrix => exact ofParts_eq matrix senses rhs bounds costs

theorem Reachable.ofProgram (h : p.Reachable) : (ofProgram p).Reachable := by
  induction h with
  | zero m n =>
    rw [ofProgram_zero]
    exact .zero m n
  | built h =>
    cases h with
    | ofParts hm h => exact .ofParts hm ((ofParts_eq ..).trans (congrArg (Store.ofProgram <$> ·) h))
    | ofRows h => exact .ofRows ((ofRows_eq ..).trans (congrArg (Store.ofProgram <$> ·) h))
  | edited h e ih =>
    rw [← after_ofProgram h.sound.shaped]
    exact ih.after (.edit e)
  | reduced h calls ih =>
    -- a reduction does nothing to its program but edit it
    obtain ⟨edits, hedits⟩ := Reduction.exists_edits_run (.start _) calls
    rw [hedits, ← run_ofProgram]
    · exact ih.run edits
    · exact h.sound.shaped

theorem Reachable.program (h : s.Reachable) : s.program.Reachable := by
  induction h with
  | zero m n =>
    rw [← ofProgram_zero, program_ofProgram]
    exact .zero m n
  | ofParts hm h =>
    rw [ofParts_eq] at h
    obtain ⟨p, hp, rfl⟩ := exists_of_map_eq_ok h
    rw [program_ofProgram]
    exact .built (.ofParts hm hp)
  | ofRows h =>
    rw [ofRows_eq] at h
    obtain ⟨p, hp, rfl⟩ := exists_of_map_eq_ok h
    rw [program_ofProgram]
    exact .built (.ofRows hp)
  | @after s _ h r ih =>
    have haligned := h.sound.aligned
    by_cases hreads : r.Reads
    · rwa [haligned.after_of_reads hreads]
    · cases r with
      | edit e =>
        rw [← haligned.ofProgram_program, after_ofProgram haligned.shaped, program_ofProgram]
        exact .edited ih e
      | _ => exact absurd trivial hreads

/-- The stores that can come about are those of the programs that can. -/
theorem reachable_iff : s.Reachable ↔ s.Aligned ∧ s.program.Reachable := by
  constructor
  · intro h
    exact ⟨h.sound.aligned, h.program⟩
  · rintro ⟨haligned, h⟩
    rw [← haligned.ofProgram_program]
    exact .ofProgram h

end StandardLp.Store
