import StandardLp.Proofs.Reduction.Complete

/-!
The check of a basis is exact. It passes exactly the bases that name a unit column for every
constraint of a program of equalities, and otherwise reports the violation that comes first. The
entry in the row of a column is read from the row and the other entries from the column, so the
two storages of the matrix have to agree for this.
-/

namespace StandardLp

namespace IndexMap

variable {α : Type} {v : IndexMap α}

/-- A search through a sorted map finds the entry with the least index that passes the test. -/
theorem Sorted.find?_eq_some_iff (h : v.Sorted) (test : Nat → Bool) {e : Nat × α} :
    v.entries.find? (fun d => test d.1) = some e ↔
      v.get? e.1 = some e.2 ∧ test e.1 = true ∧ ∀ i < e.1, test i = true → v.get? i = none := by
  rw [get?_eq_some_iff h, List.find?_eq_some_iff_append]
  constructor
  · rintro ⟨htest, before, after, hentries, hbefore⟩
    have hmem : e ∈ v.entries := by simp [hentries]
    refine ⟨hmem, htest, fun i hi hpass => ?_⟩
    cases hx : v.get? i with
    | none => rfl
    | some x =>
      -- an entry that passes cannot lie before `e`, and after `e` the indices are larger
      have hsorted := h
      rw [Sorted, hentries, List.pairwise_append, List.pairwise_cons] at hsorted
      have hentry := (get?_eq_some_iff h).mp hx
      rw [hentries, List.mem_append, List.mem_cons] at hentry
      obtain hentry | rfl | hentry := hentry
      · simpa [hpass] using hbefore _ hentry
      · exact absurd hi (Nat.lt_irrefl _)
      · exact absurd hi (Nat.lt_asymm (hsorted.2.1.1 _ hentry))
  · rintro ⟨hmem, htest, hleast⟩
    obtain ⟨before, after, hentries⟩ := List.append_of_mem hmem
    refine ⟨htest, before, after, hentries, fun d hd => ?_⟩
    have hsorted := h
    rw [Sorted, hentries, List.pairwise_append] at hsorted
    have hlt : d.1 < e.1 := hsorted.2.2 d hd e List.mem_cons_self
    have hget : v.get? d.1 = some d.2 := by
      rw [get?_eq_some_iff h, hentries]
      exact List.mem_append_left _ hd
    rw [Bool.not_eq_true', Bool.eq_false_iff]
    intro hpass
    cases hget.symm.trans (hleast d.1 hlt hpass)

end IndexMap

namespace LinearProgram

variable {f : Format}

/-! ### What is checked -/

def IsEquality (p : LinearProgram f) (i : Nat) : Prop :=
  ∃ c, p.constraintAt i = .ok c ∧ c.sense = .equal

/-- Every constraint is an equality, and `basis` names a unit column for each of them. -/
structure HasBasis (p : LinearProgram f) (basis : Array Nat) : Prop where
  isEquality : ∀ i < p.numConstraints, p.IsEquality i
  size_basis : basis.size = p.numConstraints
  isUnitColumn : ∀ i k, basis[i]? = some k → p.IsUnitColumn i k

/-- What is wrong first with column `k` for constraint `i`: that it is not there, that its entry in
the row is not a unit, or the least other row in which it has an entry. -/
inductive ColumnViolation (p : LinearProgram f) (i k : Nat) : Violation → Prop
  | columnRange (hk : p.numVariables ≤ k) : ColumnViolation p i k (.columnRange i k p.numVariables)
  | notUnit {x : Binary f} (hx : p.coefficient i k = .ok x) (hunit : ¬ (x = 1 ∨ x = -1)) :
    ColumnViolation p i k (.notUnit i k)
  | outsideRow {x y : Binary f} {v : SparseVector (Binary f)} {other : Nat}
    (hx : p.coefficient i k = .ok x) (hunit : x = 1 ∨ x = -1) (hv : p.coefficients k = .ok v)
    (hother : other ≠ i) (hy : v.get? other = some y)
    (hleast : ∀ t < other, t ≠ i → v.get? t = none) :
    ColumnViolation p i k (.outsideRow i k other)

/-- What is wrong first with a program and a basis: of the constraints, then of the number of
columns, then of the columns one by one. -/
inductive FirstViolation (p : LinearProgram f) (basis : Array Nat) : Violation → Prop
  | inequality {i : Nat} {c : Constraint f} (hc : p.constraintAt i = .ok c)
    (hsense : c.sense ≠ .equal) (hbefore : ∀ k < i, p.IsEquality k) :
    FirstViolation p basis (.inequality i c.sense)
  | basisLength (hequality : ∀ i < p.numConstraints, p.IsEquality i)
    (hsize : basis.size ≠ p.numConstraints) :
    FirstViolation p basis (.basisLength p.numConstraints basis.size)
  | column {i k : Nat} {v : Violation} (hequality : ∀ i < p.numConstraints, p.IsEquality i)
    (hsize : basis.size = p.numConstraints) (hk : basis[i]? = some k)
    (hbefore : ∀ t < i, ∀ l, basis[t]? = some l → p.IsUnitColumn t l)
    (hv : p.ColumnViolation i k v) : FirstViolation p basis v

variable {p : LinearProgram f} {basis : Array Nat}

namespace Sound

variable (h : p.Sound) {i k : Nat}
include h

theorem coefficient_eq_ok_iff {x : Binary f} :
    p.coefficient i k = .ok x ↔
      i < p.numConstraints ∧ k < p.numVariables ∧ p.matrix.entry i k = x := by
  rw [coefficient, SparseMatrix.get_eq, h.shaped.rows, h.shaped.columns]
  by_cases hi : i < p.numConstraints <;> by_cases hk : k < p.numVariables <;> simp [hi, hk]

theorem coefficients_eq_ok_iff {v : SparseVector (Binary f)} :
    p.coefficients k = .ok v ↔ k < p.numVariables ∧ p.matrix.columnAt k = v := by
  rw [coefficients, SparseMatrix.column_eq, h.shaped.columns]
  by_cases hk : k < p.numVariables <;> simp [hk]

end Sound

/-! ### One column -/

section Column

variable {i k : Nat}

theorem checkBasic_of_le (hk : p.numVariables ≤ k) :
    p.checkBasic i k = .error (.columnRange i k p.numVariables) := by
  rw [checkBasic, if_pos hk]

theorem not_beq_unit_iff (x : Binary f) :
    (!(x == 1) && !(x == -1)) = true ↔ ¬ (x = 1 ∨ x = -1) := by
  rw [Bool.and_eq_true, Bool.not_eq_true', Bool.not_eq_true', ← Bool.not_eq_true,
    ← Bool.not_eq_true, Binary.beq_one_iff, Binary.beq_neg_one_iff, not_or]

theorem checkBasic_of_not_unit (hk : k < p.numVariables)
    (hunit : ¬ (p.matrix.entry i k = 1 ∨ p.matrix.entry i k = -1)) :
    p.checkBasic i k = .error (.notUnit i k) := by
  rw [checkBasic, if_neg (Nat.not_le.mpr hk), if_pos ((not_beq_unit_iff _).mpr hunit)]

theorem checkBasic_of_unit (hk : k < p.numVariables)
    (hunit : p.matrix.entry i k = 1 ∨ p.matrix.entry i k = -1) :
    p.checkBasic i k =
      ((p.matrix.columnAt k).entries.find? (·.1 != i)).elim (.ok ())
        fun e => .error (.outsideRow i k e.1) := by
  rw [checkBasic, if_neg (Nat.not_le.mpr hk),
    if_neg fun hnot => (not_beq_unit_iff _).mp hnot hunit]
  cases (p.matrix.columnAt k).entries.find? (·.1 != i) <;> rfl

/-- A unit in row `i` is stored in the column, so without another entry it is all of it. -/
theorem Sound.columnAt_of_unit (h : p.Sound)
    (hunit : p.matrix.entry i k = 1 ∨ p.matrix.entry i k = -1)
    (hfind : (p.matrix.columnAt k).entries.find? (·.1 != i) = none) :
    p.matrix.columnAt k = ⟨[(i, p.matrix.entry i k)]⟩ := by
  have hnonzero : p.matrix.entry i k ≠ 0 := by
    intro hzero
    rw [hzero] at hunit
    obtain hone | hone := hunit <;>
      exact Binary.magnitude_one_ne_zero (congrArg Binary.magnitude hone).symm
  have hstored : p.matrix.stored i k = some (p.matrix.entry i k) := by
    rw [SparseMatrix.entry_eq]
    cases hx : p.matrix.stored i k with
    | some x => rfl
    | none =>
      rw [SparseMatrix.entry_eq, hx] at hnonzero
      exact absurd rfl hnonzero
  apply IndexMap.ext_get? (h.matrix.sorted_column k) (List.pairwise_singleton _ _)
  intro t
  rw [h.matrix.get?_columnAt, IndexMap.get?_cons]
  by_cases ht : t = i
  · rw [if_pos ht, ht, hstored]
  · rw [if_neg ht]
    -- any other entry would have been found
    cases hx : p.matrix.stored t k with
    | none => rfl
    | some x =>
      have hmem := h.matrix.mem_columnAt_iff.mpr hx
      exact absurd (by simpa using List.find?_eq_none.mp hfind _ hmem) ht

theorem Sound.checkBasic_eq_ok_iff (h : p.Sound) :
    p.checkBasic i k = .ok () ↔ p.IsUnitColumn i k := by
  constructor
  · intro hok
    by_cases hk : k < p.numVariables
    · by_cases hunit : p.matrix.entry i k = 1 ∨ p.matrix.entry i k = -1
      · rw [checkBasic_of_unit hk hunit] at hok
        cases hfind : (p.matrix.columnAt k).entries.find? (·.1 != i) with
        | none =>
          exact ⟨_, hunit, h.coefficients_eq_ok_iff.mpr ⟨hk, h.columnAt_of_unit hunit hfind⟩⟩
        | some e =>
          rw [hfind] at hok
          cases hok
      · rw [checkBasic_of_not_unit hk hunit] at hok
        cases hok
    · rw [checkBasic_of_le (Nat.le_of_not_lt hk)] at hok
      cases hok
  · rintro ⟨x, hunit, hread⟩
    obtain ⟨hk, hcolumn⟩ := h.coefficients_eq_ok_iff.mp hread
    have hentry : p.matrix.entry i k = x := by
      rw [SparseMatrix.entry_eq, ← h.matrix.get?_columnAt, hcolumn, IndexMap.get?_cons, if_pos rfl,
        Option.getD_some]
    rw [checkBasic_of_unit hk (hentry ▸ hunit), hcolumn]
    simp

theorem Sound.checkBasic_eq_error_iff (h : p.Sound) (hi : i < p.numConstraints) {v : Violation} :
    p.checkBasic i k = .error v ↔ p.ColumnViolation i k v := by
  constructor
  · intro hv
    -- each check is reached only if those before it have passed
    by_cases hk : k < p.numVariables
    · have hread : p.coefficient i k = .ok (p.matrix.entry i k) :=
        h.coefficient_eq_ok_iff.mpr ⟨hi, hk, rfl⟩
      by_cases hunit : p.matrix.entry i k = 1 ∨ p.matrix.entry i k = -1
      · rw [checkBasic_of_unit hk hunit] at hv
        cases hfind : (p.matrix.columnAt k).entries.find? (·.1 != i) with
        | none =>
          rw [hfind] at hv
          cases hv
        | some e =>
          rw [hfind] at hv
          cases hv
          obtain ⟨hy, hother, hleast⟩ :=
            ((h.matrix.sorted_column k).find?_eq_some_iff (· != i)).mp hfind
          exact .outsideRow hread hunit (h.coefficients_eq_ok_iff.mpr ⟨hk, rfl⟩)
            (by simpa using hother) hy fun t ht hti => hleast t ht (by simpa using hti)
      · rw [checkBasic_of_not_unit hk hunit] at hv
        cases hv
        exact .notUnit hread hunit
    · rw [checkBasic_of_le (Nat.le_of_not_lt hk)] at hv
      cases hv
      exact .columnRange (Nat.le_of_not_lt hk)
  · intro hv
    cases hv with
    | columnRange hk => exact checkBasic_of_le hk
    | notUnit hx hunit =>
      obtain ⟨-, hk, rfl⟩ := h.coefficient_eq_ok_iff.mp hx
      exact checkBasic_of_not_unit hk hunit
    | @outsideRow x y v other hx hunit hv hother hy hleast =>
      obtain ⟨-, hk, rfl⟩ := h.coefficient_eq_ok_iff.mp hx
      obtain ⟨-, rfl⟩ := h.coefficients_eq_ok_iff.mp hv
      have hfind : (p.matrix.columnAt k).entries.find? (·.1 != i) = some (other, y) :=
        ((h.matrix.sorted_column k).find?_eq_some_iff (· != i)).mpr
          ⟨hy, by simpa using hother, fun t ht hti => hleast t ht (by simpa using hti)⟩
      rw [checkBasic_of_unit hk hunit, hfind]
      rfl

end Column

/-! ### All constraints and all columns -/

theorem isEquality_iff {i : Nat} :
    p.IsEquality i ↔ ∃ c, p.constraints[i]? = some c ∧ c.sense = .equal := by
  simp only [IsEquality, constraintAt_eq_ok_iff]

theorem find?_inequality_eq_some_iff {c : Constraint f} {i : Nat} :
    p.constraints.toList.zipIdx.find? (·.1.sense != .equal) = some (c, i) ↔
      p.constraintAt i = .ok c ∧ c.sense ≠ .equal ∧ ∀ k < i, p.IsEquality k := by
  rw [find?_zipIdx_eq_some_iff fun c : Constraint f => c.sense != .equal, constraintAt_eq_ok_iff,
    Array.getElem?_toList, bne_iff_ne]
  refine and_congr_right fun hc => and_congr_right fun _ => forall₂_congr fun k hk => ?_
  have hlt : k < p.constraints.size := Nat.lt_trans hk (Array.getElem?_eq_some_iff.mp hc).1
  simp [isEquality_iff, Array.getElem?_eq_getElem hlt]

theorem find?_inequality_eq_none_iff :
    p.constraints.toList.zipIdx.find? (·.1.sense != .equal) = none ↔
      ∀ i < p.numConstraints, p.IsEquality i := by
  rw [find?_zipIdx_eq_none_iff fun c : Constraint f => c.sense != .equal]
  constructor
  · intro h i hi
    have hc : p.constraints[i]? = some p.constraints[i] := Array.getElem?_eq_getElem hi
    exact isEquality_iff.mpr ⟨_, hc, by simpa using h i _ (by simpa using hc)⟩
  · intro h i c hc
    rw [Array.getElem?_toList] at hc
    obtain ⟨d, hd, hsense⟩ := isEquality_iff.mp (h i (Array.getElem?_eq_some_iff.mp hc).1)
    rw [hc, Option.some.injEq] at hd
    simpa [hd] using hsense

theorem checkBasis_of_size (hequality : ∀ i < p.numConstraints, p.IsEquality i)
    (hsize : basis.size = p.numConstraints) :
    p.checkBasis basis = basis.toList.zipIdx.forM fun e => p.checkBasic e.2 e.1 := by
  rw [checkBasis, find?_inequality_eq_none_iff.mpr hequality]
  exact if_neg (not_not_intro hsize)

theorem checkBasis_of_size_ne (hequality : ∀ i < p.numConstraints, p.IsEquality i)
    (hsize : basis.size ≠ p.numConstraints) :
    p.checkBasis basis = .error (.basisLength p.numConstraints basis.size) := by
  rw [checkBasis, find?_inequality_eq_none_iff.mpr hequality]
  exact if_pos hsize

theorem checkBasis_of_inequality {c : Constraint f} {i : Nat} (hc : p.constraintAt i = .ok c)
    (hsense : c.sense ≠ .equal) (hbefore : ∀ k < i, p.IsEquality k) :
    p.checkBasis basis = .error (.inequality i c.sense) := by
  rw [checkBasis, find?_inequality_eq_some_iff.mpr ⟨hc, hsense, hbefore⟩]

theorem exists_inequality (h : ¬ ∀ i < p.numConstraints, p.IsEquality i) :
    ∃ c i, p.constraintAt i = .ok c ∧ c.sense ≠ .equal ∧ ∀ k < i, p.IsEquality k := by
  rw [← find?_inequality_eq_none_iff] at h
  obtain ⟨⟨c, i⟩, hfind⟩ := Option.ne_none_iff_exists'.mp h
  exact ⟨c, i, find?_inequality_eq_some_iff.mp hfind⟩

theorem Sound.checkBasis_of_hasBasis (h : p.Sound) (hbasis : p.HasBasis basis) :
    p.checkBasis basis = .ok () := by
  rw [checkBasis_of_size hbasis.isEquality hbasis.size_basis, forM_zipIdx_eq_ok_iff]
  intro i k hk
  rw [Array.getElem?_toList] at hk
  exact h.checkBasic_eq_ok_iff.mpr (hbasis.isUnitColumn i k hk)

theorem Sound.checkBasis_of_firstViolation (h : p.Sound) {v : Violation}
    (hv : p.FirstViolation basis v) : p.checkBasis basis = .error v := by
  cases hv with
  | inequality hc hsense hbefore => exact checkBasis_of_inequality hc hsense hbefore
  | basisLength hequality hsize => exact checkBasis_of_size_ne hequality hsize
  | @column i k _ hequality hsize hk hbefore hv =>
    rw [checkBasis_of_size hequality hsize, forM_zipIdx_eq_error_iff]
    have hi : i < p.numConstraints := hsize ▸ (Array.getElem?_eq_some_iff.mp hk).1
    refine ⟨i, k, by simpa using hk, (h.checkBasic_eq_error_iff hi).mpr hv, fun t ht l hl => ?_⟩
    exact h.checkBasic_eq_ok_iff.mpr (hbefore t ht l (by simpa using hl))

theorem Sound.checkBasis_cases (h : p.Sound) (basis : Array Nat) :
    (p.checkBasis basis = .ok () ∧ p.HasBasis basis) ∨
      ∃ v, p.checkBasis basis = .error v ∧ p.FirstViolation basis v := by
  by_cases hequality : ∀ i < p.numConstraints, p.IsEquality i
  · by_cases hsize : basis.size = p.numConstraints
    · cases hcheck : p.checkBasis basis with
      | ok _ =>
        refine .inl ⟨rfl, hequality, hsize, fun i k hk => ?_⟩
        rw [checkBasis_of_size hequality hsize, forM_zipIdx_eq_ok_iff] at hcheck
        exact h.checkBasic_eq_ok_iff.mp (hcheck i k (by simpa using hk))
      | error v =>
        refine .inr ⟨v, rfl, ?_⟩
        rw [checkBasis_of_size hequality hsize, forM_zipIdx_eq_error_iff] at hcheck
        obtain ⟨i, k, hk, hv, hbefore⟩ := hcheck
        rw [Array.getElem?_toList] at hk
        have hi : i < p.numConstraints := hsize ▸ (Array.getElem?_eq_some_iff.mp hk).1
        have hviolation := (h.checkBasic_eq_error_iff hi).mp hv
        refine .column hequality hsize hk (fun t ht l hl => ?_) hviolation
        exact h.checkBasic_eq_ok_iff.mp (hbefore t ht l (by simpa using hl))
    · exact .inr ⟨_, checkBasis_of_size_ne hequality hsize, .basisLength hequality hsize⟩
  · obtain ⟨c, i, hc, hsense, hbefore⟩ := exists_inequality hequality
    exact .inr ⟨_, checkBasis_of_inequality hc hsense hbefore, .inequality hc hsense hbefore⟩

theorem Sound.checkBasis_eq_ok_iff (h : p.Sound) :
    p.checkBasis basis = .ok () ↔ p.HasBasis basis := by
  refine ⟨fun hok => ?_, h.checkBasis_of_hasBasis⟩
  obtain ⟨-, hbasis⟩ | ⟨v, hv, -⟩ := h.checkBasis_cases basis
  · exact hbasis
  · cases hok.symm.trans hv

theorem Sound.checkBasis_eq_error_iff (h : p.Sound) {v : Violation} :
    p.checkBasis basis = .error v ↔ p.FirstViolation basis v := by
  refine ⟨fun herror => ?_, h.checkBasis_of_firstViolation⟩
  obtain ⟨hok, -⟩ | ⟨w, hw, hfirst⟩ := h.checkBasis_cases basis
  · cases hok.symm.trans herror
  · cases herror.symm.trans hw
    exact hfirst

/-- A column has its unit in one row only, so no column is named twice. -/
theorem HasBasis.nodup (h : p.HasBasis basis) : basis.toList.Nodup := by
  refine List.pairwise_iff_getElem.mpr fun i j hi hj hij hsame => ?_
  obtain ⟨x, -, hx⟩ := h.isUnitColumn i _ (Array.getElem?_eq_getElem hi)
  obtain ⟨y, -, hy⟩ := h.isUnitColumn j _ (Array.getElem?_eq_getElem hj)
  have hread := hx.symm.trans ((congrArg p.coefficients hsame).trans hy)
  cases hread
  exact Nat.lt_irrefl _ hij

structure CheckIsExact (p : LinearProgram f) : Prop where
  accepted : ∀ basis, p.checkBasis basis = .ok () ↔ p.HasBasis basis
  refused : ∀ basis v, p.checkBasis basis = .error v ↔ p.FirstViolation basis v
  distinct : ∀ basis, p.checkBasis basis = .ok () → basis.toList.Nodup
  readable : ∀ (basis : Array Nat) (i k : Nat), basis.size = p.numConstraints →
    basis[i]? = some k → k < p.numVariables →
    (∃ x, p.coefficient i k = .ok x) ∧ ∃ v, p.coefficients k = .ok v

/-- On every program that can come about the check is exact, whatever list of indices it is given,
and all that it reads of columns that are there is within the matrix. -/
theorem reachable_checkIsExact (hp : p.Reachable) : p.CheckIsExact where
  accepted basis := hp.sound.checkBasis_eq_ok_iff
  refused basis v := hp.sound.checkBasis_eq_error_iff
  distinct basis hok := (hp.sound.checkBasis_eq_ok_iff.mp hok).nodup
  readable basis i k hsize hi hk := by
    have hlt : i < p.numConstraints := hsize ▸ (Array.getElem?_eq_some_iff.mp hi).1
    exact ⟨⟨_, hp.sound.coefficient_eq_ok_iff.mpr ⟨hlt, hk, rfl⟩⟩,
      ⟨_, hp.sound.coefficients_eq_ok_iff.mpr ⟨hk, rfl⟩⟩⟩

/-- A NaN below a one spoils its column, and a column that is named twice is no unit column for one
of its rows. Clearing the NaN mends the first column, so that the basis is accepted. -/
theorem reachable_checkIsExact_nan :
    let p : LinearProgram .binary64 := (LinearProgram.zero 2 2).run [.setSense 0 .equal,
      .setSense 1 .equal, .setCoefficient 0 0 1, .setCoefficient 1 0 .nan, .setCoefficient 1 1 (-1)]
    let q := p.edited (.setCoefficient 1 0 (-0))
    p.Reachable ∧ p.CheckIsExact ∧ p.FirstViolation #[0, 1] (.outsideRow 0 0 1) ∧
      q.FirstViolation #[0, 0] (.notUnit 1 0) ∧ q.HasBasis #[0, 1] := by
  intro p q
  have hp : p.Reachable := .run (.zero 2 2) _
  have hq : q.CheckIsExact := reachable_checkIsExact (.edited hp _)
  exact ⟨hp, reachable_checkIsExact hp, ((reachable_checkIsExact hp).refused _ _).mp rfl,
    (hq.refused _ _).mp rfl, (hq.accepted _).mp rfl⟩

end LinearProgram

end StandardLp
