import StandardLp.Program.Store
import StandardLp.Proofs.Search
import StandardLp.Proofs.Sparse.Reachable

/-!
Requests to a store whose parts have matching lengths. A request with an index out of range is
refused before anything is changed. All others go through: the indices that have been checked are
good for every part that they are used in, and the parts have matching lengths again.
-/

namespace StandardLp

/-! ### Indices -/

namespace LinearProgram

variable {f : Format} {β : Type}

def Cell.indices : Cell f β → List (Axis × Nat)
  | .sense i | .rhs i => [(.row, i)]
  | .coefficient i j => [(.row, i), (.column, j)]
  | .lower j | .upper j | .cost j => [(.column, j)]

def Edit.indices : Edit f → List (Axis × Nat)
  | .setSense i _ | .copyConstraint i => [(.row, i)]
  | .setCoefficient i j _ => [(.row, i), (.column, j)]
  | .setCost j _ | .setLower j _ | .setUpper j _ => [(.column, j)]
  | .addVariable | .addConstraint _ _ => []

/-- The axis along which the edit appends. -/
def Edit.appends : Edit f → Option Axis
  | .addVariable => some .column
  | .addConstraint _ _ | .copyConstraint _ => some .row
  | _ => none

end LinearProgram

namespace Store

open LinearProgram (Cell Edit)

variable {f : Format} {α β γ : Type} {s t : Store f} {a : Axis} {i j k : Nat}

def Request.indices : Request f β → List (Axis × Nat)
  | .value c => c.indices
  | .coefficients j | .lowerIsZero j | .lowerIsInfinite j | .upperIsInfinite j => [(.column, j)]
  | .edit e => e.indices

def Request.Reads : Request f β → Prop
  | .edit _ => False
  | _ => True

def InRange (s : Store f) (indices : List (Axis × Nat)) : Prop :=
  ∀ a ∈ indices, a.2 < s.length a.1

instance (s : Store f) (indices : List (Axis × Nat)) : Decidable (s.InRange indices) :=
  inferInstanceAs (Decidable (∀ a ∈ indices, a.2 < s.length a.1))

def firstOut? (s : Store f) (indices : List (Axis × Nat)) : Option IndexError :=
  (indices.find? fun a => s.length a.1 ≤ a.2).map fun a => ⟨a.1, a.2, s.length a.1⟩

@[simp] theorem length_row : s.length .row = s.numConstraints := rfl

@[simp] theorem length_column : s.length .column = s.numVariables := rfl

@[simp] theorem inRange_nil : s.InRange [] := List.forall_mem_nil _

@[simp] theorem inRange_cons (a : Axis × Nat) (rest : List (Axis × Nat)) :
    s.InRange (a :: rest) ↔ a.2 < s.length a.1 ∧ s.InRange rest :=
  List.forall_mem_cons

@[simp] theorem firstOut?_nil : s.firstOut? [] = none := rfl

@[simp] theorem firstOut?_cons (a : Axis × Nat) (rest : List (Axis × Nat)) :
    s.firstOut? (a :: rest) =
      if a.2 < s.length a.1 then s.firstOut? rest else some ⟨a.1, a.2, s.length a.1⟩ := by
  rw [firstOut?, List.find?_cons]
  by_cases ha : a.2 < s.length a.1
  · rw [if_pos ha, decide_eq_false (Nat.not_le.mpr ha)]
    rfl
  · rw [if_neg ha, decide_eq_true (Nat.le_of_not_lt ha)]
    rfl

theorem firstOut?_eq_none_iff {indices : List (Axis × Nat)} :
    s.firstOut? indices = none ↔ s.InRange indices := by
  simp [firstOut?, InRange]

/-! ### Refusals -/

theorem run_check (s : Store f) (a : Axis) (i : Nat) : (check a i).run s =
    if i < s.length a then .ok () s else .error (.refused ⟨a, i, s.length a⟩) s := by
  by_cases hi : i < s.length a <;> simp [check, Axis.check, hi]

theorem run_check_bind (s : Store f) (a : Axis) (i : Nat) (rest : Unit → StoreM f β) :
    (check a i >>= rest).run s =
      if i < s.length a then (rest ()).run s
      else .error (.refused ⟨a, i, s.length a⟩) s := by
  by_cases hi : i < s.length a
  · rw [if_pos hi, run_bind_of_ok ((run_check s a i).trans (if_pos hi))]
  · rw [if_neg hi, run_bind_of_error ((run_check s a i).trans (if_neg hi))]

section Refusal

variable {refusal : IndexError}

theorem run_check_of_out (h : s.firstOut? [(a, i)] = some refusal) (rest : Unit → StoreM f γ) :
    (check a i >>= rest).run s = .error (.refused refusal) s := by
  rw [firstOut?_cons] at h
  by_cases hi : i < s.length a
  · rw [if_pos hi] at h
    cases h
  · rw [if_neg hi] at h
    cases h
    rw [run_check_bind, if_neg hi]

theorem run_checks_of_out (h : s.firstOut? [(.row, i), (.column, j)] = some refusal)
    (rest : Unit → StoreM f γ) :
    (check .row i >>= fun _ => check .column j >>= rest).run s =
      .error (.refused refusal) s := by
  rw [firstOut?_cons] at h
  rw [run_check_bind]
  by_cases hi : i < s.length .row
  · rw [if_pos hi] at h ⊢
    exact run_check_of_out h rest
  · rw [if_neg hi] at h ⊢
    cases h
    rfl

theorem run_fetch_of_out (c : Cell f β) (h : s.firstOut? c.indices = some refusal) :
    (fetch c).run s = .error (.refused refusal) s := by
  cases c with
  | coefficient i j => exact run_checks_of_out h _
  | _ => exact run_check_of_out h _

theorem run_apply_of_out {e : Edit f} (h : s.firstOut? e.indices = some refusal) :
    (apply e).run s = .error (.refused refusal) s := by
  cases e with
  | setCoefficient i j b => exact run_bind_of_error (run_checks_of_out h _)
  | copyConstraint i => exact run_map_of_error _ (run_check_of_out h _)
  | addVariable => cases h
  | addConstraint x b => cases h
  | _ => exact run_bind_of_error (run_check_of_out h _)

/-- Whatever the lengths, nothing happens before all indices are checked. -/
theorem run_perform_of_out {r : Request f β} (h : s.firstOut? r.indices = some refusal) :
    (perform r).run s = .error (.refused refusal) s := by
  cases r with
  | value c => exact run_fetch_of_out c h
  | coefficients j => exact run_check_of_out h _
  | edit e => exact run_apply_of_out h
  | _ => exact run_map_of_error _ (run_check_of_out h _)

end Refusal

/-! ### Requests in range -/

/-- The vectors have the lengths of the matrix. -/
structure Aligned (s : Store f) : Prop where
  rows : s.matrix.numRows = s.senses.size
  rhs : s.rhs.size = s.senses.size
  columns : s.matrix.numColumns = s.costs.size
  lower : s.lower.size = s.costs.size
  upper : s.upper.size = s.costs.size

structure Sound (s : Store f) : Prop where
  aligned : s.Aligned
  matrix : s.matrix.WellFormed

def value? (s : Store f) : Cell f β → Option β
  | .sense i => s.senses[i]?
  | .rhs i => s.rhs[i]?
  | .coefficient i j =>
    if i < s.numConstraints ∧ j < s.numVariables then some (s.matrix.entry i j) else none
  | .lower j => s.lower[j]?
  | .upper j => s.upper[j]?
  | .cost j => s.costs[j]?

/-- The storage after an edit whose indices are in range. -/
def result (s : Store f) : Edit f → Store f
  | .setSense i x => { s with senses := s.senses.setIfInBounds i x }
  | .setCoefficient i j b => { s with matrix := s.matrix.write i j b }
  | .setCost j b => { s with costs := s.costs.setIfInBounds j b }
  | .setLower j b => { s with lower := s.lower.setIfInBounds j b }
  | .setUpper j b => { s with upper := s.upper.setIfInBounds j b }
  | .addVariable => { s with
      matrix := s.matrix.addColumn.2
      lower := s.lower.push 0
      upper := s.upper.push .infinity
      costs := s.costs.push 0 }
  | .addConstraint x b => { s with
      matrix := s.matrix.addRow.2
      senses := s.senses.push x
      rhs := s.rhs.push b }
  | .copyConstraint i => { s with
      matrix := s.matrix.appendRow (s.matrix.rowAt i)
      senses := s.senses.push (s.senses[i]?.getD .less)
      rhs := s.rhs.push (s.rhs[i]?.getD 0) }

namespace Field

variable {x : Field f α} {b : α}

theorem run_fetch (h : (x.values s)[i]? = some b) : (x.fetch i).run s = .ok b s := by
  simp [fetch, h]

theorem run_assign (h : i < (x.values s).size) :
    (x.assign i b).run s = .ok () (x.update ((x.values s).setIfInBounds i b) s) := by
  simp [assign, h]

theorem run_push (s : Store f) :
    (x.push b).run s = .ok () (x.update ((x.values s).push b) s) := rfl

theorem run_read (hi : i < s.length x.axis) (h : (x.values s)[i]? = some b) :
    (x.read i).run s = .ok b s := by
  rw [read, run_check_bind, if_pos hi, run_fetch h]

theorem run_overwrite (hi : i < s.length x.axis) (h : (x.values s).size = s.length x.axis) :
    (x.overwrite i b).run s = .ok () (x.update ((x.values s).setIfInBounds i b) s) := by
  rw [overwrite, run_check_bind, if_pos hi, run_assign (h ▸ hi)]

end Field

theorem run_consult {g : SparseMatrix (Binary f) → Except IndexError β} {b : β}
    (h : g s.matrix = .ok b) : (consult g).run s = .ok b s := by
  simp [consult, h]

theorem run_revise {g : SparseMatrix (Binary f) → Except IndexError (β × SparseMatrix (Binary f))}
    {b : β} {m : SparseMatrix (Binary f)} (h : g s.matrix = .ok (b, m)) :
    (revise g).run s = .ok b { s with matrix := m } := by
  rw [revise, run_bind_of_ok (EStateM.run_get s), h]
  rfl

theorem run_assertLast (h : k + 1 = s.length a) : (assertLast a k).run s = .ok () s := by
  simp [assertLast, h]

namespace Aligned

variable (h : s.Aligned)
include h

theorem run_setCoefficient (hi : i < s.numConstraints) (hj : j < s.numVariables) (b : Binary f) :
    (setCoefficient i j b).run s = .ok () { s with matrix := s.matrix.write i j b } := by
  have hi' : i < s.matrix.numRows := h.rows.symm ▸ hi
  have hj' : j < s.matrix.numColumns := h.columns.symm ▸ hj
  rw [setCoefficient, run_check_bind, length_row, if_pos hi, run_check_bind, length_column,
    if_pos hj]
  apply run_revise
  rw [SparseMatrix.set_eq, if_pos hi', if_pos hj']
  rfl

theorem run_addVariable : addVariable.run s = .ok s.numVariables (s.result .addVariable) := by
  rw [addVariable, run_bind_of_ok (run_revise rfl), run_bind_of_ok (Field.run_push _),
    run_bind_of_ok (Field.run_push _), run_bind_of_ok (Field.run_push _),
    run_bind_of_ok (run_assertLast _)]
  · rw [h.columns]
    rfl
  · rw [h.columns]
    exact (Array.size_push _).symm

theorem run_addConstraint (x : Sense) (b : Binary f) :
    (addConstraint x b).run s = .ok s.numConstraints (s.result (.addConstraint x b)) := by
  rw [addConstraint, run_bind_of_ok (run_revise rfl), run_bind_of_ok (Field.run_push _),
    run_bind_of_ok (Field.run_push _), run_bind_of_ok (run_assertLast _)]
  · rw [h.rows]
    rfl
  · rw [h.rows]
    exact (Array.size_push _).symm

theorem run_copyConstraint (hi : i < s.numConstraints) :
    (copyConstraint i).run s = .ok s.numConstraints (s.result (.copyConstraint i)) := by
  have hrow : i < s.matrix.numRows := h.rows.symm ▸ hi
  have hrhs : i < s.rhs.size := h.rhs.symm ▸ hi
  -- all three reads of row `i` come after the one check
  rw [copyConstraint, run_check_bind, length_row, if_pos hi,
    run_bind_of_ok (run_revise ((s.matrix.copyRow_eq i).trans (if_pos hrow))),
    run_bind_of_ok (Field.run_fetch (Array.getElem?_eq_getElem hi)),
    run_bind_of_ok (Field.run_push _),
    run_bind_of_ok (Field.run_fetch (Array.getElem?_eq_getElem hrhs)),
    run_bind_of_ok (Field.run_push _), run_bind_of_ok (run_assertLast _)]
  · rw [h.rows, result, Array.getElem?_eq_getElem hi, Array.getElem?_eq_getElem hrhs]
    rfl
  · rw [h.rows]
    exact (Array.size_push _).symm

theorem run_fetch (c : Cell f β) (hin : s.InRange c.indices) :
    ∃ b, s.value? c = some b ∧ (fetch c).run s = .ok b s := by
  cases c with
  | sense i =>
    have hi : i < s.numConstraints := by simpa [Cell.indices] using hin
    have hget := Array.getElem?_eq_getElem hi
    exact ⟨_, hget, Field.run_read hi hget⟩
  | rhs i =>
    have hi : i < s.numConstraints := by simpa [Cell.indices] using hin
    have hget := Array.getElem?_eq_getElem (Nat.lt_of_lt_of_eq hi h.rhs.symm)
    exact ⟨_, hget, Field.run_read hi hget⟩
  | coefficient i j =>
    obtain ⟨hi, hj⟩ : i < s.numConstraints ∧ j < s.numVariables := by
      simpa [Cell.indices] using hin
    -- the check compares with the vectors, and the assertion with the matrix
    have hi' : i < s.matrix.numRows := h.rows.symm ▸ hi
    have hj' : j < s.matrix.numColumns := h.columns.symm ▸ hj
    refine ⟨_, if_pos ⟨hi, hj⟩, ?_⟩
    rw [fetch, coefficient, run_check_bind, length_row, if_pos hi, run_check_bind, length_column,
      if_pos hj]
    apply run_consult
    rw [SparseMatrix.get_eq, if_pos hi', if_pos hj']
  | lower j =>
    have hj : j < s.numVariables := by simpa [Cell.indices] using hin
    have hget := Array.getElem?_eq_getElem (Nat.lt_of_lt_of_eq hj h.lower.symm)
    exact ⟨_, hget, Field.run_read hj hget⟩
  | upper j =>
    have hj : j < s.numVariables := by simpa [Cell.indices] using hin
    have hget := Array.getElem?_eq_getElem (Nat.lt_of_lt_of_eq hj h.upper.symm)
    exact ⟨_, hget, Field.run_read hj hget⟩
  | cost j =>
    have hj : j < s.numVariables := by simpa [Cell.indices] using hin
    have hget := Array.getElem?_eq_getElem hj
    exact ⟨_, hget, Field.run_read hj hget⟩

theorem run_coefficients (hj : j < s.numVariables) :
    (coefficients j).run s = .ok (s.matrix.columnAt j) s := by
  rw [coefficients, run_check_bind, length_column, if_pos hj]
  apply run_consult
  rw [SparseMatrix.column_eq, if_pos (h.columns.symm ▸ hj)]

theorem run_apply {e : Edit f} (hin : s.InRange e.indices) :
    (apply e).run s = .ok (e.appends.map s.length) (s.result e) := by
  cases e with
  | setSense i x =>
    have hi : i < s.numConstraints := by simpa [Edit.indices] using hin
    exact run_bind_of_ok (Field.run_overwrite hi rfl)
  | setCoefficient i j b =>
    obtain ⟨hi, hj⟩ : i < s.numConstraints ∧ j < s.numVariables := by
      simpa [Edit.indices] using hin
    exact run_bind_of_ok (h.run_setCoefficient hi hj b)
  | setCost j b =>
    have hj : j < s.numVariables := by simpa [Edit.indices] using hin
    exact run_bind_of_ok (Field.run_overwrite hj rfl)
  | setLower j b =>
    have hj : j < s.numVariables := by simpa [Edit.indices] using hin
    exact run_bind_of_ok (Field.run_overwrite hj h.lower)
  | setUpper j b =>
    have hj : j < s.numVariables := by simpa [Edit.indices] using hin
    exact run_bind_of_ok (Field.run_overwrite hj h.upper)
  | addVariable => exact run_map_of_ok _ h.run_addVariable
  | addConstraint x b => exact run_map_of_ok _ (h.run_addConstraint x b)
  | copyConstraint i =>
    have hi : i < s.numConstraints := by simpa [Edit.indices] using hin
    exact run_map_of_ok _ (h.run_copyConstraint hi)

theorem exists_run_reads {r : Request f β} (hreads : r.Reads) (hin : s.InRange r.indices) :
    ∃ b, (perform r).run s = .ok b s := by
  cases r with
  | value c =>
    obtain ⟨b, -, hrun⟩ := h.run_fetch c hin
    exact ⟨b, hrun⟩
  | coefficients j => exact ⟨_, h.run_coefficients (by simpa [Request.indices] using hin)⟩
  | lowerIsZero j | lowerIsInfinite j =>
    obtain ⟨b, -, hrun⟩ := h.run_fetch (.lower j) hin
    exact ⟨_, run_map_of_ok _ hrun⟩
  | upperIsInfinite j =>
    obtain ⟨b, -, hrun⟩ := h.run_fetch (.upper j) hin
    exact ⟨_, run_map_of_ok _ hrun⟩
  | edit e => cases hreads

theorem after_of_reads {r : Request f β} (hreads : r.Reads) : s.after r = s := by
  rw [Store.after]
  cases hout : s.firstOut? r.indices with
  | some refusal => rw [run_perform_of_out hout]
  | none =>
    obtain ⟨b, hrun⟩ := h.exists_run_reads hreads (firstOut?_eq_none_iff.mp hout)
    rw [hrun]

theorem after_edit (e : Edit f) :
    s.after (.edit e) = if s.InRange e.indices then s.result e else s := by
  rw [Store.after, perform]
  cases hout : s.firstOut? e.indices with
  | some refusal =>
    have hnot : ¬ s.InRange e.indices := fun hin => by
      rw [firstOut?_eq_none_iff.mpr hin] at hout
      cases hout
    rw [run_apply_of_out hout, if_neg hnot]
  | none =>
    have hin := firstOut?_eq_none_iff.mp hout
    rw [h.run_apply hin, if_pos hin]

end Aligned

/-! ### What can come about -/

namespace Aligned

theorem zero (m n : Nat) : (Store.zero m n : Store f).Aligned := by
  constructor <;> simp [Store.zero]

theorem ofParts {matrix : SparseMatrix (Binary f)} {senses : Array Sense} {rhs : Array (Binary f)}
    {bounds : Array (Binary f × Binary f)} {costs : Array (Binary f)}
    (hs : Store.ofParts matrix senses rhs bounds costs = .ok s) : s.Aligned ∧ s.matrix = matrix := by
  unfold Store.ofParts at hs
  split at hs
  · cases hs
  · rename_i hrows
    split at hs
    · cases hs
    · rename_i hcolumns
      split at hs
      · cases hs
      · cases hs
        refine ⟨⟨?_, ?_, ?_, ?_, ?_⟩, rfl⟩
        all_goals simp only [Array.size_map]
        all_goals omega

/-- What is appended goes to every part of its axis, so that the lengths stay in step. -/
theorem result (h : s.Aligned) (e : Edit f) : (s.result e).Aligned := by
  obtain ⟨hrows, hrhs, hcolumns, hlower, hupper⟩ := h
  cases e <;> constructor <;> simp [Store.result, *]

end Aligned

namespace Sound

theorem result (h : s.Sound) {e : Edit f} (hin : s.InRange e.indices) : (s.result e).Sound where
  aligned := h.aligned.result e
  matrix := by
    cases e with
    | setCoefficient i j b =>
      obtain ⟨hi, hj⟩ : i < s.numConstraints ∧ j < s.numVariables := by
        simpa [Edit.indices] using hin
      exact h.matrix.write (Nat.lt_of_lt_of_eq hi h.aligned.rows.symm)
        (Nat.lt_of_lt_of_eq hj h.aligned.columns.symm) b
    | addVariable => exact h.matrix.addColumn
    | addConstraint x b => exact h.matrix.addRow
    | copyConstraint i => exact h.matrix.appendRow i
    | _ => exact h.matrix

/-- Nothing that is asked makes the storage unsound, whether it is granted or refused. -/
theorem after (h : s.Sound) (r : Request f β) : (s.after r).Sound := by
  by_cases hreads : r.Reads
  · rwa [h.aligned.after_of_reads hreads]
  · cases r with
    | edit e =>
      rw [h.aligned.after_edit]
      split
      · exact h.result ‹_›
      · exact h
    | _ => exact absurd trivial hreads

end Sound

/-- The storage can come about: it is built and then asked for anything, in any order, whatever is
refused. -/
inductive Reachable : Store f → Prop where
  | zero (numConstraints numVariables : Nat) : Reachable (.zero numConstraints numVariables)
  | ofParts {matrix : SparseMatrix (Binary f)} {senses : Array Sense} {rhs : Array (Binary f)}
      {bounds : Array (Binary f × Binary f)} {costs : Array (Binary f)} {s : Store f}
      (hm : matrix.Reachable) (h : ofParts matrix senses rhs bounds costs = .ok s) : Reachable s
  | ofRows {numConstraints numVariables : Nat} {rows : Compressed (Binary f)}
      {bounds : Array (Binary f × Binary f)} {senses : Array Sense} {rhs costs : Array (Binary f)}
      {s : Store f} (h : ofRows numConstraints numVariables rows bounds senses rhs costs = .ok s) :
      Reachable s
  | after {s : Store f} {β : Type} (h : Reachable s) (r : Request f β) : Reachable (s.after r)

theorem Reachable.run (h : s.Reachable) (edits : List (Edit f)) : (s.run edits).Reachable := by
  induction edits generalizing s with
  | nil => exact h
  | cons e edits ih => exact ih (h.after (.edit e))

theorem Reachable.sound (h : s.Reachable) : s.Sound := by
  induction h with
  | zero m n => exact ⟨.zero m n, .zero m n⟩
  | ofParts hm h =>
    obtain ⟨haligned, hmatrix⟩ := Aligned.ofParts h
    exact ⟨haligned, hmatrix ▸ hm.wellFormed⟩
  | @ofRows m n rows bounds senses rhs costs s h =>
    rw [Store.ofRows] at h
    cases hrows : SparseMatrix.ofRows m n rows with
    | error e =>
      rw [hrows] at h
      cases h
    | ok matrix =>
      rw [hrows] at h
      have hm : matrix.Reachable := .ofRows hrows
      obtain ⟨haligned, hmatrix⟩ := Aligned.ofParts h
      exact ⟨haligned, hmatrix ▸ hm.wellFormed⟩
  | after _ r ih => exact ih.after r

end Store

end StandardLp
