import StandardLp.Reduction.Call
import StandardLp.Proofs.Numeric.Comparison
import StandardLp.Proofs.Sparse.Stored

/-!
The plan of a reduction: which rows it will make of a program, in order, and what they hold. The
plan reads the program at first and nothing else, so what a reduction does in its steps can be
compared with it.
-/

namespace StandardLp

/-- What a row of a reduced program was made from. -/
inductive RowOrigin where
  /-- Row `i` of the program at first. -/
  | given (i : Nat)
  /-- The copy of equality `i`. -/
  | copy (i : Nat)
  /-- A bound of variable `j`. -/
  | bound (side : Side) (j : Nat)
deriving DecidableEq, Repr

namespace Variable

variable {f : Format}

def bound (v : Variable f) : Side → Binary f
  | .lower => v.lower
  | .upper => v.upper

/-- The sides on which a bound becomes a row. -/
def enforcedSides (v : Variable f) : List Side :=
  (if v.lowerIsZero || v.lowerIsInfinite then [] else [.lower]) ++
    if v.upperIsInfinite then [] else [.upper]

def isBounded (v : Variable f) : Bool := !v.lowerIsZero || !v.upperIsInfinite

def freed (v : Variable f) : Variable f := { v with lower := 0, upper := .infinity }

theorem isBounded_eq_false_iff {v : Variable f} :
    v.isBounded = false ↔ v.lowerIsZero = true ∧ v.upperIsInfinite = true := by
  simp [isBounded]

theorem isBounded_iff {v : Variable f} :
    v.isBounded = true ↔ v.lowerIsZero = false ∨ v.upperIsInfinite = false := by
  simp [isBounded]

@[simp] theorem isBounded_nonnegative : (nonnegative : Variable f).isBounded = false := by
  have hinf : ((.infinity : Binary f) == .infinity) = true :=
    Binary.beq_self Binary.isNaN_infinity
  simp [isBounded, nonnegative, lowerIsZero, upperIsInfinite, Binary.zero_beq_zero, hinf]

end Variable

namespace LinearProgram

variable {f : Format} (p : LinearProgram f)

def givenRows : List RowOrigin := (List.range p.numConstraints).map .given

def copyRows : List RowOrigin := p.equalities.map .copy

def boundRowsOf (j : Nat) : List RowOrigin :=
  (p.vars[j]?.elim [] (·.enforcedSides)).map (.bound · j)

def boundRowsBelow (n : Nat) : List RowOrigin := (List.range n).flatMap p.boundRowsOf

def boundRows : List RowOrigin := p.boundRowsBelow p.numVariables

def plan : List RowOrigin := p.givenRows ++ p.copyRows ++ p.boundRows

def boundedBelow (n : Nat) : List Nat :=
  (List.range n).filter fun j => p.vars[j]?.any (·.isBounded)

def boundedVars : List Nat := p.boundedBelow p.numVariables

/-! ### What a row holds -/

/-- What a row stores for variable `j` of the program at first. -/
def storedAt : RowOrigin → Nat → Option (Binary f)
  | .given i, j => p.matrix.stored i j
  | .copy i, j => p.matrix.stored i j
  | .bound _ k, j => if j = k then some 1 else none

/-- All that a row stores when it is appended. -/
def rowOf : RowOrigin → SparseVector (Binary f)
  | .given i => p.matrix.rowAt i
  | .copy i => p.matrix.rowAt i
  | .bound _ j => ⟨[(j, 1)]⟩

def rhsOf : RowOrigin → Binary f
  | .given i => p.constraints[i]?.elim 0 (·.rhs)
  | .copy i => p.constraints[i]?.elim 0 (·.rhs)
  | .bound side j => p.vars[j]?.elim 0 (·.bound side)

def costOf (j : Nat) : Binary f := p.vars[j]?.elim 0 (·.cost)

/-- The sense of a row when the equalities in `relaxed` have been split. -/
def senseOf (relaxed : List Nat) : RowOrigin → Sense
  | .given i => if i ∈ relaxed then .less else p.constraints[i]?.elim .less (·.sense)
  | .copy _ => .greater
  | .bound side _ => side.sense

/-- The side on which a row bounds its activity once the equalities have been split. -/
def sideOf : RowOrigin → Side
  | .given i => if p.constraints[i]?.any (·.sense == .greater) then .lower else .upper
  | .copy _ => .lower
  | .bound side _ => side

theorem get?_rowOf (r : RowOrigin) (j : Nat) : (p.rowOf r).get? j = p.storedAt r j := by
  cases r with
  | given i | copy i => rfl
  | bound side k => exact IndexMap.get?_cons ..

/-! ### Facts about the lists -/

theorem getElem?_givenRows_eq_some {i : Nat} {r : RowOrigin} :
    p.givenRows[i]? = some r ↔ i < p.numConstraints ∧ r = .given i := by
  simp only [givenRows, List.getElem?_map, Option.map_eq_some_iff]
  constructor
  · rintro ⟨k, hk, rfl⟩
    obtain ⟨hi, hget⟩ := List.getElem?_eq_some_iff.mp hk
    rw [List.getElem_range] at hget
    rw [List.length_range] at hi
    exact ⟨hi, by rw [hget]⟩
  · rintro ⟨hi, rfl⟩
    exact ⟨i, List.getElem?_range hi, rfl⟩

theorem mem_equalities {i : Nat} :
    i ∈ p.equalities ↔ ∃ c, p.constraints[i]? = some c ∧ c.sense = .equal := by
  simp only [equalities, List.mem_map, List.mem_filter, beq_iff_eq]
  constructor
  · rintro ⟨⟨c, k⟩, ⟨hmem, hsense⟩, rfl⟩
    exact ⟨c, by simpa using List.mk_mem_zipIdx_iff_getElem?.mp hmem, hsense⟩
  · rintro ⟨c, hc, hsense⟩
    exact ⟨(c, i), ⟨List.mk_mem_zipIdx_iff_getElem?.mpr (by simpa using hc), hsense⟩, rfl⟩

theorem nodup_equalities : p.equalities.Nodup := by
  refine List.Nodup.sublist (List.filter_sublist.map Prod.snd) ?_
  rw [List.zipIdx_map_snd]
  exact List.nodup_range' ..

theorem mem_boundedBelow {n j : Nat} :
    j ∈ p.boundedBelow n ↔ j < n ∧ ∃ v, p.vars[j]? = some v ∧ v.isBounded := by
  simp only [boundedBelow, List.mem_filter, List.mem_range, Option.any_eq_true]

theorem mem_boundedVars {j : Nat} :
    j ∈ p.boundedVars ↔ ∃ v, p.vars[j]? = some v ∧ v.isBounded := by
  rw [boundedVars, mem_boundedBelow]
  exact and_iff_right_of_imp fun ⟨_, hv, _⟩ => (Array.getElem?_eq_some_iff.mp hv).1

theorem boundedBelow_succ (n : Nat) :
    p.boundedBelow (n + 1) =
      p.boundedBelow n ++ if p.vars[n]?.any (·.isBounded) then [n] else [] := by
  rw [boundedBelow, List.range_succ, List.filter_append, List.filter_cons, List.filter_nil]
  rfl

theorem boundRowsBelow_succ (n : Nat) :
    p.boundRowsBelow (n + 1) = p.boundRowsBelow n ++ p.boundRowsOf n := by
  simp [boundRowsBelow, List.range_succ]

theorem boundRowsOf_of_le {j : Nat} (h : p.numVariables ≤ j) : p.boundRowsOf j = [] := by
  rw [boundRowsOf, Array.getElem?_eq_none h]
  rfl

/-- Columns beyond the variables at first have no bounds to enforce. -/
theorem boundRowsBelow_of_le {n : Nat} (h : p.numVariables ≤ n) :
    p.boundRowsBelow n = p.boundRows := by
  induction h with
  | refl => rfl
  | step h ih => rw [boundRowsBelow_succ, ih, p.boundRowsOf_of_le h, List.append_nil]

theorem boundedBelow_of_le {n : Nat} (h : p.numVariables ≤ n) :
    p.boundedBelow n = p.boundedVars := by
  induction h with
  | refl => rfl
  | step h ih =>
    rw [boundedBelow_succ, ih, Array.getElem?_eq_none h]
    simp

theorem senseOf_append_singleton (relaxed : List Nat) (i : Nat) (r : RowOrigin) :
    p.senseOf (relaxed ++ [i]) r = if r = .given i then .less else p.senseOf relaxed r := by
  cases r with
  | copy k => rfl
  | bound side k => rfl
  | given k => by_cases hk : k = i <;> simp [senseOf, hk]

/-- Once the equalities have been split, every row has a side. -/
theorem side?_senseOf (r : RowOrigin) :
    (p.senseOf p.equalities r).side? = some (p.sideOf r) := by
  cases r with
  | copy i => rfl
  | bound side j => exact side.side?_sense
  | given i =>
    by_cases hi : i ∈ p.equalities
    · obtain ⟨c, hc, hsense⟩ := p.mem_equalities.mp hi
      simp [senseOf, sideOf, hi, hc, hsense, Sense.side?]
    · cases hc : p.constraints[i]? with
      | none => simp [senseOf, sideOf, hi, hc, Sense.side?]
      | some c =>
        have hsense : c.sense ≠ .equal := fun h => hi (p.mem_equalities.mpr ⟨c, hc, h⟩)
        cases hs : c.sense with
        | equal => exact absurd hs hsense
        | greater => simp [senseOf, sideOf, hi, hc, hs, Sense.side?]
        | less => simp [senseOf, sideOf, hi, hc, hs, Sense.side?]

theorem senseOf_equalities (r : RowOrigin) : p.senseOf p.equalities r = (p.sideOf r).sense :=
  Side.sense_of_side? (p.side?_senseOf r)

/-! ### Members of the plan -/

variable {p}

theorem mem_givenRows {r : RowOrigin} :
    r ∈ p.givenRows ↔ ∃ (i : Nat) (c : Constraint f), p.constraints[i]? = some c ∧ r = .given i := by
  simp only [givenRows, List.mem_map, List.mem_range]
  constructor
  · rintro ⟨i, hi, rfl⟩
    exact ⟨i, _, Array.getElem?_eq_getElem hi, rfl⟩
  · rintro ⟨i, c, hc, rfl⟩
    exact ⟨i, (Array.getElem?_eq_some_iff.mp hc).1, rfl⟩

theorem mem_copyRows {r : RowOrigin} :
    r ∈ p.copyRows ↔ ∃ (i : Nat) (c : Constraint f),
      p.constraints[i]? = some c ∧ c.sense = .equal ∧ r = .copy i := by
  simp only [copyRows, List.mem_map, mem_equalities]
  constructor
  · rintro ⟨i, ⟨c, hc, hsense⟩, rfl⟩
    exact ⟨i, c, hc, hsense, rfl⟩
  · rintro ⟨i, c, hc, hsense, rfl⟩
    exact ⟨i, ⟨c, hc, hsense⟩, rfl⟩

theorem mem_boundRows {r : RowOrigin} :
    r ∈ p.boundRows ↔ ∃ (j : Nat) (v : Variable f) (side : Side),
      p.vars[j]? = some v ∧ side ∈ v.enforcedSides ∧ r = .bound side j := by
  simp only [boundRows, boundRowsBelow, boundRowsOf, List.mem_flatMap, List.mem_range,
    List.mem_map]
  constructor
  · rintro ⟨j, hj, side, hside, rfl⟩
    have hv : p.vars[j]? = some p.vars[j] := Array.getElem?_eq_getElem hj
    rw [hv, Option.elim_some] at hside
    exact ⟨j, _, side, hv, hside, rfl⟩
  · rintro ⟨j, v, side, hv, hside, rfl⟩
    refine ⟨j, (Array.getElem?_eq_some_iff.mp hv).1, side, ?_, rfl⟩
    rwa [hv, Option.elim_some]

theorem copy_mem_plan {i : Nat} : .copy i ∈ p.plan ↔
    ∃ c : Constraint f, p.constraints[i]? = some c ∧ c.sense = .equal := by
  simp only [plan, List.mem_append, mem_givenRows, mem_copyRows, mem_boundRows]
  constructor
  · rintro ((⟨k, c, -, heq⟩ | ⟨k, c, hc, hsense, heq⟩) | ⟨j, v, side, -, -, heq⟩) <;> cases heq
    exact ⟨c, hc, hsense⟩
  · rintro ⟨c, hc, hsense⟩
    exact .inl (.inr ⟨i, c, hc, hsense, rfl⟩)

theorem bound_mem_plan {side : Side} {j : Nat} : .bound side j ∈ p.plan ↔
    ∃ v : Variable f, p.vars[j]? = some v ∧ side ∈ v.enforcedSides := by
  simp only [plan, List.mem_append, mem_givenRows, mem_copyRows, mem_boundRows]
  constructor
  · rintro ((⟨i, c, -, heq⟩ | ⟨i, c, -, -, heq⟩) | ⟨k, v, side, hv, hside, heq⟩) <;> cases heq
    exact ⟨v, hv, hside⟩
  · rintro ⟨v, hv, hside⟩
    exact .inr ⟨j, v, side, hv, hside, rfl⟩

end LinearProgram

end StandardLp
