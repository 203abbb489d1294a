import StandardLp.Proofs.Program.Sound
import StandardLp.Proofs.Sparse.Acceptance

/-!
Programs put together from the data of a reader. The parts are checked one after the other: the
rows of the matrix, what is given for its rows, what is given for its columns, and the bounds of
every variable. A program that comes of them has every value at the index at which it was given.
-/

namespace StandardLp

variable {f : Format}

/-! ### Bounds -/

/-- The bounds are in order and no end excludes every number by itself. -/
structure Variable.Admits (lower upper : Binary f) : Prop where
  le : lower ≤ upper
  lower_ne : lower ≠ .infinity
  upper_ne : upper ≠ -.infinity

theorem Variable.admissible_iff {lower upper : Binary f} :
    Variable.admissible lower upper = true ↔ Variable.Admits lower upper := by
  have hlower := Binary.beq_infinity_iff lower
  have hupper := Binary.beq_neg_infinity_iff upper
  rw [admissible, Bool.and_eq_true, Bool.and_eq_true, decide_eq_true_eq, Bool.not_eq_true',
    Bool.not_eq_true', ← Bool.not_eq_true, ← Bool.not_eq_true, hlower, hupper]
  exact ⟨fun h => ⟨h.1.1, h.1.2, h.2⟩, fun h => ⟨⟨h.le, h.lower_ne⟩, h.upper_ne⟩⟩

theorem Variable.not_admissible_iff {lower upper : Binary f} :
    (!Variable.admissible lower upper) = true ↔ ¬ Variable.Admits lower upper := by
  rw [Bool.not_eq_true', ← Bool.not_eq_true, admissible_iff]

namespace LinearProgram

/-- What a reader gives: the size of the program, the rows of its matrix, and what belongs to each
row and to each column. -/
structure Given (f : Format) where
  numConstraints : Nat
  numVariables : Nat
  rows : Compressed (Binary f)
  bounds : Array (Binary f × Binary f)
  senses : Array Sense
  rhs : Array (Binary f)
  costs : Array (Binary f)

namespace Given

def matrix (d : Given f) : Except (Inconsistency (Binary f)) (SparseMatrix (Binary f)) :=
  SparseMatrix.ofRows d.numConstraints d.numVariables d.rows

def program (d : Given f) : Except (Inconsistency (Binary f)) (LinearProgram f) :=
  ofRows d.numConstraints d.numVariables d.rows d.bounds d.senses d.rhs d.costs

/-! ### What is checked -/

def RowsFit (d : Given f) : Prop := ∃ m, d.matrix = .ok m

def RowDataFits (d : Given f) : Prop :=
  d.senses.size = d.numConstraints ∧ d.rhs.size = d.numConstraints

def ColumnDataFits (d : Given f) : Prop :=
  d.bounds.size = d.numVariables ∧ d.costs.size = d.numVariables

def BoundsFit (d : Given f) : Prop :=
  ∀ (j : Nat) b, d.bounds[j]? = some b → Variable.Admits b.1 b.2

structure Fits (d : Given f) : Prop where
  rows : d.RowsFit
  rowData : d.RowDataFits
  columnData : d.ColumnDataFits
  bounds : d.BoundsFit

/-- The refusal for the first check that the data does not pass. Of several bad pairs of bounds it
is the one at the least index. -/
inductive Refusal (d : Given f) : Inconsistency (Binary f) → Prop
  | rows {e : Inconsistency (Binary f)}
    (hrows : SparseMatrix.RowsRefusal d.numConstraints d.numVariables d.rows e) : Refusal d e
  | rowData (hrows : d.RowsFit) (hrowData : ¬ d.RowDataFits) :
    Refusal d (.rowData d.numConstraints d.senses.size d.rhs.size)
  | columnData (hrows : d.RowsFit) (hrowData : d.RowDataFits) (hcolumnData : ¬ d.ColumnDataFits) :
    Refusal d (.columnData d.numVariables d.bounds.size d.costs.size)
  | emptyBounds {j : Nat} {lower upper : Binary f} (hrows : d.RowsFit) (hrowData : d.RowDataFits)
    (hcolumnData : d.ColumnDataFits) (hj : d.bounds[j]? = some (lower, upper))
    (hbounds : ¬ Variable.Admits lower upper)
    (hbefore : ∀ k < j, ∀ b, d.bounds[k]? = some b → Variable.Admits b.1 b.2) :
    Refusal d (.emptyBounds j lower upper)

section Checks

variable {d : Given f} {m : SparseMatrix (Binary f)}

def assembled (d : Given f) (m : SparseMatrix (Binary f)) : LinearProgram f where
  matrix := m
  constraints := Array.zipWith .mk d.senses d.rhs
  vars := Array.zipWith (fun b cost => ⟨b.1, b.2, cost⟩) d.bounds d.costs

theorem size_of_matrix (hm : d.matrix = .ok m) :
    m.numRows = d.numConstraints ∧ m.numColumns = d.numVariables := by
  have h := SparseMatrix.Represents.of_begins (.ofRows hm)
  exact ⟨h.numRows, h.numColumns⟩

theorem program_of_matrix (hm : d.matrix = .ok m) :
    d.program = ofParts m d.senses d.rhs d.bounds d.costs := by
  rw [matrix] at hm
  rw [program, ofRows, hm]
  rfl

theorem find?_bounds_eq_some_iff {j : Nat} {lower upper : Binary f} :
    (d.bounds.toList.zipIdx.find? fun b => !Variable.admissible b.1.1 b.1.2) =
        some ((lower, upper), j) ↔
      d.bounds[j]? = some (lower, upper) ∧ ¬ Variable.Admits lower upper ∧
        ∀ k < j, ∀ b, d.bounds[k]? = some b → Variable.Admits b.1 b.2 := by
  rw [find?_zipIdx_eq_some_iff fun b : Binary f × Binary f => !Variable.admissible b.1 b.2]
  simp only [Array.getElem?_toList, Variable.not_admissible_iff, Bool.not_eq_false',
    Variable.admissible_iff]

theorem find?_bounds_eq_none_iff :
    (d.bounds.toList.zipIdx.find? fun b => !Variable.admissible b.1.1 b.1.2) = none ↔
      d.BoundsFit := by
  rw [find?_zipIdx_eq_none_iff fun b : Binary f × Binary f => !Variable.admissible b.1 b.2]
  simp only [Array.getElem?_toList, Bool.not_eq_false', Variable.admissible_iff, BoundsFit]

theorem program_of_not_rowData (hm : d.matrix = .ok m) (h : ¬ d.RowDataFits) :
    d.program = .error (.rowData d.numConstraints d.senses.size d.rhs.size) := by
  rw [program_of_matrix hm, ofParts, (size_of_matrix hm).1, if_pos (not_and_or.mp h)]

theorem program_of_not_columnData (hm : d.matrix = .ok m) (hrow : d.RowDataFits)
    (h : ¬ d.ColumnDataFits) :
    d.program = .error (.columnData d.numVariables d.bounds.size d.costs.size) := by
  rw [program_of_matrix hm, ofParts, (size_of_matrix hm).1, (size_of_matrix hm).2,
    if_neg (not_or.mpr ⟨not_not_intro hrow.1, not_not_intro hrow.2⟩), if_pos (not_and_or.mp h)]

theorem program_of_sizes (hm : d.matrix = .ok m) (hrow : d.RowDataFits)
    (hcolumn : d.ColumnDataFits) :
    d.program = match d.bounds.toList.zipIdx.find? fun b => !Variable.admissible b.1.1 b.1.2 with
      | some ((lower, upper), j) => .error (.emptyBounds j lower upper)
      | none => .ok (d.assembled m) := by
  rw [program_of_matrix hm, ofParts, (size_of_matrix hm).1, (size_of_matrix hm).2,
    if_neg (not_or.mpr ⟨not_not_intro hrow.1, not_not_intro hrow.2⟩),
    if_neg (not_or.mpr ⟨not_not_intro hcolumn.1, not_not_intro hcolumn.2⟩)]
  rfl

theorem program_of_bounds (hm : d.matrix = .ok m) (hrow : d.RowDataFits)
    (hcolumn : d.ColumnDataFits) (hbounds : d.BoundsFit) : d.program = .ok (d.assembled m) := by
  rw [program_of_sizes hm hrow hcolumn, find?_bounds_eq_none_iff.mpr hbounds]

theorem program_of_refusal {e : Inconsistency (Binary f)} (h : d.Refusal e) :
    d.program = .error e := by
  cases h with
  | rows hrows =>
    rw [program, ofRows, SparseMatrix.ofRows_of_refusal hrows]
    rfl
  | rowData hrows hrowData =>
    obtain ⟨m, hm⟩ := hrows
    exact program_of_not_rowData hm hrowData
  | columnData hrows hrowData hcolumnData =>
    obtain ⟨m, hm⟩ := hrows
    exact program_of_not_columnData hm hrowData hcolumnData
  | emptyBounds hrows hrowData hcolumnData hj hbounds hbefore =>
    obtain ⟨m, hm⟩ := hrows
    rw [program_of_sizes hm hrowData hcolumnData,
      find?_bounds_eq_some_iff.mpr ⟨hj, hbounds, hbefore⟩]

theorem program_cases (d : Given f) :
    (d.Fits ∧ ∃ m, d.matrix = .ok m ∧ d.program = .ok (d.assembled m)) ∨
      ∃ e, d.program = .error e ∧ d.Refusal e := by
  have hrefused : ∀ {e}, d.Refusal e → ∃ e, d.program = .error e ∧ d.Refusal e :=
    fun h => ⟨_, program_of_refusal h, h⟩
  cases hm : d.matrix with
  | error e => exact .inr (hrefused (.rows (SparseMatrix.ofRows_eq_error_iff.mp hm)))
  | ok m =>
    by_cases hrow : d.RowDataFits
    case neg => exact .inr (hrefused (.rowData ⟨m, hm⟩ hrow))
    by_cases hcolumn : d.ColumnDataFits
    case neg => exact .inr (hrefused (.columnData ⟨m, hm⟩ hrow hcolumn))
    cases hfind : d.bounds.toList.zipIdx.find? fun b => !Variable.admissible b.1.1 b.1.2 with
    | none =>
      have hbounds := find?_bounds_eq_none_iff.mp hfind
      exact .inl ⟨⟨⟨m, hm⟩, hrow, hcolumn, hbounds⟩, m, rfl,
        program_of_bounds hm hrow hcolumn hbounds⟩
    | some bad =>
      obtain ⟨⟨lower, upper⟩, j⟩ := bad
      obtain ⟨hj, hbad, hbefore⟩ := find?_bounds_eq_some_iff.mp hfind
      exact .inr (hrefused (.emptyBounds ⟨m, hm⟩ hrow hcolumn hj hbad hbefore))

theorem exists_program_iff : (∃ p, d.program = .ok p) ↔ d.Fits := by
  constructor
  · rintro ⟨p, hp⟩
    obtain ⟨hfits, -⟩ | ⟨e, he, -⟩ := d.program_cases
    · exact hfits
    · cases hp.symm.trans he
  · intro hfits
    obtain ⟨m, hm⟩ := hfits.rows
    exact ⟨_, program_of_bounds hm hfits.rowData hfits.columnData hfits.bounds⟩

theorem program_eq_error_iff {e : Inconsistency (Binary f)} :
    d.program = .error e ↔ d.Refusal e := by
  refine ⟨fun herror => ?_, program_of_refusal⟩
  obtain ⟨-, m, -, hok⟩ | ⟨e', he', hrefusal⟩ := d.program_cases
  · cases hok.symm.trans herror
  · cases herror.symm.trans he'
    exact hrefusal

theorem exists_matrix_of_program {p : LinearProgram f} (hp : d.program = .ok p) :
    d.Fits ∧ ∃ m, d.matrix = .ok m ∧ p = d.assembled m := by
  obtain ⟨hfits, m, hm, hok⟩ | ⟨e, he, -⟩ := d.program_cases
  · cases hp.symm.trans hok
    exact ⟨hfits, m, hm, rfl⟩
  · cases hp.symm.trans he

end Checks

/-! ### What is read -/

/-- The program reads as it was given: what belongs to a row or a column stands at its index, and
of the values given for one coefficient the last one counts. A zero of either sign reads like a
place for which nothing was given. -/
structure ReadsAs (d : Given f) (p : LinearProgram f) : Prop where
  numConstraints : p.numConstraints = d.numConstraints
  numVariables : p.numVariables = d.numVariables
  sense : ∀ i < d.numConstraints, ∃ s, d.senses[i]? = some s ∧ p.read (.sense i) = .ok s
  rhs : ∀ i < d.numConstraints, ∃ x, d.rhs[i]? = some x ∧ p.read (.rhs i) = .ok x
  bounds : ∀ j < d.numVariables, ∃ b, d.bounds[j]? = some b ∧ p.read (.lower j) = .ok b.1 ∧
    p.read (.upper j) = .ok b.2
  cost : ∀ j < d.numVariables, ∃ x, d.costs[j]? = some x ∧ p.read (.cost j) = .ok x
  last : ∀ i < d.numConstraints, ∀ j < d.numVariables, ∀ k x, d.rows.LastAt i j k →
    d.rows.values[k]? = some x → p.read (.coefficient i j) = .ok (if x == 0 then 0 else x)
  absent : ∀ i < d.numConstraints, ∀ j < d.numVariables,
    (∀ k, d.rows.Within i k → d.rows.indices[k]? ≠ some j) → p.read (.coefficient i j) = .ok 0

section Assembled

variable {d : Given f} {m : SparseMatrix (Binary f)}

theorem constraintAt_assembled (h : d.RowDataFits) {i : Nat} (hi : i < d.numConstraints) :
    ∃ s x, d.senses[i]? = some s ∧ d.rhs[i]? = some x ∧
      (d.assembled m).constraintAt i = .ok ⟨s, x⟩ := by
  have hsenses : i < d.senses.size := h.1.symm ▸ hi
  have hrhs : i < d.rhs.size := h.2.symm ▸ hi
  have hs := Array.getElem?_eq_getElem hsenses
  have hx := Array.getElem?_eq_getElem hrhs
  refine ⟨_, _, hs, hx, (constraintAt_eq_ok_iff _).mpr ?_⟩
  rw [assembled, Array.getElem?_zipWith, hs, hx]

theorem variableAt_assembled (h : d.ColumnDataFits) {j : Nat} (hj : j < d.numVariables) :
    ∃ b x, d.bounds[j]? = some b ∧ d.costs[j]? = some x ∧
      (d.assembled m).variableAt j = .ok ⟨b.1, b.2, x⟩ := by
  have hbounds : j < d.bounds.size := h.1.symm ▸ hj
  have hcosts : j < d.costs.size := h.2.symm ▸ hj
  have hb := Array.getElem?_eq_getElem hbounds
  have hx := Array.getElem?_eq_getElem hcosts
  refine ⟨_, _, hb, hx, (variableAt_eq_ok_iff _).mpr ?_⟩
  rw [assembled, Array.getElem?_zipWith, hb, hx]

theorem coefficient_of_value (hm : d.matrix = .ok m) {i j : Nat} (hi : i < d.numConstraints)
    (hj : j < d.numVariables) {x : Binary f}
    (hx : (Grid.ofRows d.numConstraints d.numVariables d.rows).value i j =
      written x) :
    (d.assembled m).coefficient i j = .ok (written x) :=
  ((SparseMatrix.Represents.of_begins (.ofRows hm)).get_and_stored hi hj hx).1

theorem assembled_readsAs (hm : d.matrix = .ok m) (hrow : d.RowDataFits)
    (hcolumn : d.ColumnDataFits) : d.ReadsAs (d.assembled m) := by
  have hpacked : d.rows.Packed d.numConstraints :=
    (SparseMatrix.exists_ofRows_eq_ok_iff.mp ⟨m, hm⟩).1
  constructor
  case numConstraints => exact (Array.size_zipWith ..).trans (by rw [hrow.1, hrow.2, Nat.min_self])
  case numVariables =>
    exact (Array.size_zipWith ..).trans (by rw [hcolumn.1, hcolumn.2, Nat.min_self])
  case sense =>
    intro i hi
    obtain ⟨s, x, hs, -, hread⟩ := constraintAt_assembled (m := m) hrow hi
    exact ⟨s, hs, congrArg (Constraint.sense <$> ·) hread⟩
  case rhs =>
    intro i hi
    obtain ⟨s, x, -, hx, hread⟩ := constraintAt_assembled (m := m) hrow hi
    exact ⟨x, hx, congrArg (Constraint.rhs <$> ·) hread⟩
  case bounds =>
    intro j hj
    obtain ⟨b, x, hb, -, hread⟩ := variableAt_assembled (m := m) hcolumn hj
    exact ⟨b, hb, congrArg (Variable.lower <$> ·) hread, congrArg (Variable.upper <$> ·) hread⟩
  case cost =>
    intro j hj
    obtain ⟨b, x, -, hx, hread⟩ := variableAt_assembled (m := m) hcolumn hj
    exact ⟨x, hx, congrArg (Variable.cost <$> ·) hread⟩
  case last =>
    intro i hi j hj k x hlast hx
    exact coefficient_of_value hm hi hj (SparseMatrix.value_ofRows_of_lastAt hpacked hlast hx)
  case absent =>
    intro i hi j hj habsent
    have hzero : written (0 : Binary f) = 0 := by simp [written]
    have hread := coefficient_of_value hm hi hj
      ((SparseMatrix.value_ofRows_of_absent hpacked hi habsent).trans hzero.symm)
    rwa [hzero] at hread

end Assembled

structure Honoured (d : Given f) : Prop where
  accepted : (∃ p, d.program = .ok p) ↔ d.Fits
  refused : ∀ e, d.program = .error e ↔ d.Refusal e
  no_nan : d.Fits → ∀ (j : Nat) b, d.bounds[j]? = some b →
    b.1.isNaN = false ∧ b.2.isNaN = false
  readsAs : ∀ p, d.program = .ok p → d.ReadsAs p

/-- Whatever is given, exactly what fits together is put together, and nothing of it is changed. -/
theorem program_honoured (d : Given f) : d.Honoured where
  accepted := exists_program_iff
  refused _ := program_eq_error_iff
  no_nan hfits j b hb := by
    obtain ⟨hlower, hupper, -⟩ := (hfits.bounds j b hb).le
    exact ⟨hlower, hupper⟩
  readsAs p hp := by
    obtain ⟨hfits, m, hm, rfl⟩ := exists_matrix_of_program hp
    exact assembled_readsAs hm hfits.rowData hfits.columnData

/-- A NaN is found before an infinity on the wrong side, and free bounds before it are no matter. -/
example :
    (⟨0, 3, ⟨#[], #[], #[0]⟩, #[(-.infinity, .infinity), (0, .nan), (.infinity, .infinity)], #[],
      #[], #[0, 0, 0]⟩ : Given .binary64).program = .error (.emptyBounds 1 0 .nan) := rfl

end Given

end LinearProgram

end StandardLp
