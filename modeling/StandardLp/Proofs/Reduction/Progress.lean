import StandardLp.Proofs.Reduction.Depiction

/-!
How the actions move a reduction from stage to stage. Every lemma says which stage an action
leads to; the programs before and after it are compared entry by entry.
-/

namespace StandardLp.Reduction

variable {f : Format}

theorem depicts_start {p : LinearProgram f} (hp : p.Sound) :
    Depicts p (.early p.givenRows []) (start p) where
  sound := hp
  allotment := .empty p.numVariables
  numConstraints := by simp [start, Stage.early, LinearProgram.givenRows]
  numVariables := rfl
  slackBasis := rfl
  constraint i r hr := by
    obtain ⟨hi, rfl⟩ := p.getElem?_givenRows_eq_some.mp hr
    have hc : p.constraints[i]? = some p.constraints[i] := Array.getElem?_eq_getElem hi
    simp [start, Stage.early, LinearProgram.senseOf, LinearProgram.rhsOf, hc]
  stored_given i r hr j hj := by
    obtain ⟨hi, rfl⟩ := p.getElem?_givenRows_eq_some.mp hr
    rfl
  stored_negative j k hk := by cases hk
  stored_slack t r ht := absurd ht (Nat.not_lt_zero t)
  var_given j v hv := hv
  var_negative j k v hk := by cases hk
  var_slack t ht := absurd ht (Nat.not_lt_zero t)
  census := by
    have hcount : ∀ kind, (Stage.early p.givenRows []).count kind = 0 := by
      intro kind
      simp [Stage.count, Stage.early, LinearProgram.givenRows, RowOrigin.kind?]
    simp only [hcount]
    rfl

theorem getElem?_concat_cases {β : Type} {l : List β} {a b : β} {t : Nat}
    (h : (l ++ [a])[t]? = some b) :
    t = l.length ∧ a = b ∨ t < l.length ∧ l[t]? = some b := by
  by_cases heq : t = l.length
  · rw [heq, List.getElem?_concat_length, Option.some.injEq] at h
    exact .inl ⟨heq, h⟩
  · have hlt := (List.getElem?_eq_some_iff.mp h).1
    rw [List.length_append, List.length_singleton] at hlt
    have hbelow : t < l.length := by omega
    rw [List.getElem?_append_left hbelow] at h
    exact .inr ⟨hbelow, h⟩

theorem getElem?_constraints_halved {s : Reduction f} {i : Nat} {c : Constraint f}
    (hc : s.program.constraints[i]? = some c) (t : Nat) :
    (s.halved i c).program.constraints[t]? =
      if t = s.program.numConstraints then some ⟨.greater, c.rhs⟩
      else if t = i then some ⟨.less, c.rhs⟩ else s.program.constraints[t]? := by
  have hi : i < s.program.constraints.size := (Array.getElem?_eq_some_iff.mp hc).1
  simp only [halved, LinearProgram.numConstraints, Array.getElem?_modify, Array.getElem?_push]
  by_cases ht : t = s.program.constraints.size
  · simp [ht, Nat.ne_of_lt hi]
  · by_cases hti : t = i
    · subst hti
      simp [ht, Ne.symm ht, hc]
    · simp [ht, hti, Ne.symm ht, Ne.symm hti]

namespace Depicts

variable {p : LinearProgram f} {g : Stage} {s : Reduction f} {i j k : Nat}

/-- Every column is a variable of the program at first, a negative part or a slack. -/
theorem column_cases (h : Depicts p g s) {l : Nat} (hl : l < s.program.numVariables) :
    l < p.numVariables ∨ (∃ j, s.splits.get? j = some l) ∨
      ∃ t, t < g.slacks ∧ l = p.numVariables + s.splits.size + t := by
  rw [h.numVariables] at hl
  by_cases hgiven : l < p.numVariables
  · exact .inl hgiven
  · by_cases hnegative : l < p.numVariables + s.splits.size
    · exact .inr (.inl (h.allotment.surjective (by omega) hnegative))
    · exact .inr (.inr ⟨l - (p.numVariables + s.splits.size), by omega, by omega⟩)

theorem lt_numVariables_of_given (h : Depicts p g s) {v : Variable f}
    (hv : p.vars[j]? = some v) : j < s.program.numVariables := by
  have hgiven : j < p.numVariables := (Array.getElem?_eq_some_iff.mp hv).1
  have hcount := h.numVariables
  omega

theorem lt_numVariables (h : Depicts p g s) (hk : s.splits.get? j = some k) :
    k < s.program.numVariables := by
  have hlast := h.allotment.bounds hk
  have hcount := h.numVariables
  omega

/-- Every variable is one of the program at first, left as it was, or is bounded by `x ≥ 0`. -/
theorem var_cases (h : Depicts p g s) {u : Variable f} (hu : s.program.vars[k]? = some u) :
    p.vars[k]? = some u ∨ u.lower = 0 ∧ u.upper = .infinity := by
  obtain hgiven | ⟨j, hj⟩ | ⟨t, ht, rfl⟩ :=
    h.column_cases (Array.getElem?_eq_some_iff.mp hu).1
  · have hv : p.vars[k]? = some p.vars[k] := Array.getElem?_eq_getElem hgiven
    rw [h.var_given k _ hv, Option.some.injEq] at hu
    rw [← hu]
    split
    · exact .inr ⟨rfl, rfl⟩
    · exact .inl hv
  · have hlt : j < s.program.vars.size :=
      Nat.lt_trans (h.allotment.lt hj) (h.lt_numVariables hj)
    rw [h.var_negative j k _ hj (Array.getElem?_eq_getElem hlt), Option.some.injEq] at hu
    rw [← hu]
    exact .inr ⟨rfl, rfl⟩
  · rw [h.var_slack t ht, Option.some.injEq] at hu
    rw [← hu]
    exact .inr ⟨rfl, rfl⟩

theorem size_slackBasis (h : Depicts p g s) : s.slackBasis.size = g.slacks := by
  rw [← Array.length_toList, h.slackBasis, List.length_map, List.length_range]

/-- The slacks are the last columns, in the order of their rows. -/
theorem getElem?_slackBasis (h : Depicts p g s) :
    s.slackBasis[i]? = some k ↔ i < g.slacks ∧ k = p.numVariables + s.splits.size + i := by
  rw [← Array.getElem?_toList, h.slackBasis, List.getElem?_map, Option.map_eq_some_iff]
  constructor
  · rintro ⟨t, ht, rfl⟩
    obtain ⟨hi, hget⟩ := List.getElem?_eq_some_iff.mp ht
    rw [List.getElem_range] at hget
    rw [List.length_range] at hi
    exact ⟨hi, by rw [hget]⟩
  · rintro ⟨hi, rfl⟩
    exact ⟨i, List.getElem?_range hi, rfl⟩

section Early

variable {rows : List RowOrigin} {relaxed : List Nat}

theorem column_cases_early (h : Depicts p (.early rows relaxed) s) {l : Nat}
    (hl : l < s.program.numVariables) : l < p.numVariables ∨ ∃ j, s.splits.get? j = some l := by
  obtain hgiven | hnegative | ⟨t, ht, -⟩ := h.column_cases hl
  · exact .inl hgiven
  · exact .inr hnegative
  · exact absurd ht (Nat.not_lt_zero t)

/-- Before the negative parts are filled, only the columns of the program at first hold anything. -/
theorem stored_early (h : Depicts p (.early rows relaxed) s) {l : Nat} (hl : p.numVariables ≤ l)
    (i : Nat) : s.program.matrix.stored i l = none := by
  by_cases hlt : l < s.program.numVariables
  · obtain hgiven | ⟨j, hj⟩ := h.column_cases_early hlt
    · exact absurd hgiven (Nat.not_lt_of_le hl)
    · exact h.stored_negative j l hj i
  · exact h.sound.matrix.stored_of_le_column (h.sound.shaped.columns ▸ Nat.le_of_not_lt hlt) i

theorem vars_given_early (h : Depicts p (.early rows relaxed) s) {v : Variable f}
    (hv : p.vars[j]? = some v) : s.program.vars[j]? = some v := by
  simpa [Stage.early] using h.var_given j v hv

theorem vars_negative_early (h : Depicts p (.early rows relaxed) s)
    (hk : s.splits.get? j = some k) : s.program.vars[k]? = some .nonnegative := by
  have hlt : j < s.program.numVariables := Nat.lt_trans (h.allotment.lt hk) (h.lt_numVariables hk)
  exact h.var_negative j k _ hk (Array.getElem?_eq_getElem hlt)

/-- Appending a row is a step to the next stage if the new row holds what its origin says and the
old rows keep what they hold. -/
theorem append (h : Depicts p (.early rows relaxed) s) {s' : Reduction f} {r : RowOrigin}
    {relaxed' : List Nat} (hsound : s'.program.Sound) (hsplits : s'.splits = s.splits)
    (hbasis : s'.slackBasis = s.slackBasis) (hvars : s'.program.vars = s.program.vars)
    (hsize : s'.program.numConstraints = s.program.numConstraints + 1)
    (hconstraint : ∀ (t : Nat) q, (rows ++ [r])[t]? = some q →
      s'.program.constraints[t]? = some ⟨p.senseOf relaxed' q, p.rhsOf q⟩)
    (hstored : ∀ t l, s'.program.matrix.stored t l =
      if t = rows.length then if l < p.numVariables then p.storedAt r l else none
      else s.program.matrix.stored t l)
    (hcensus : s'.census = r.kind?.elim s.census s.census.addRow) :
    Depicts p (.early (rows ++ [r]) relaxed') s' where
  sound := hsound
  allotment := hsplits ▸ h.allotment
  numConstraints := by
    rw [hsize, h.numConstraints]
    simp [Stage.early]
  numVariables := by
    have := h.numVariables
    rw [LinearProgram.numVariables, hvars, hsplits]
    exact this
  slackBasis := by
    rw [hbasis, h.slackBasis]
    rfl
  constraint t q hq := by
    rw [hconstraint t q hq]
    rfl
  stored_given t q hq l hl := by
    rw [hstored]
    obtain ⟨ht, rfl⟩ | ⟨hlt, hq'⟩ := getElem?_concat_cases (l := rows) hq
    · rw [if_pos ht, if_pos hl]
    · rw [if_neg (Nat.ne_of_lt hlt)]
      exact h.stored_given t q hq' l hl
  stored_negative j k hk t := by
    rw [hsplits] at hk
    have hle := (h.allotment.bounds hk).1
    rw [hstored, h.stored_early hle]
    -- the columns of negative parts are empty so far, in the new row as in the old ones
    by_cases ht : t = rows.length
    · rw [if_pos ht, if_neg (Nat.not_lt_of_le hle)]
      rfl
    · rw [if_neg ht]
      rfl
  stored_slack t q ht := absurd ht (Nat.not_lt_zero t)
  var_given l v hv := by
    rw [hvars, h.var_given l v hv]
    simp [Stage.early]
  var_negative j k v hk hv := by
    rw [hsplits] at hk
    rw [hvars] at hv ⊢
    exact h.var_negative j k v hk hv
  var_slack t ht := absurd ht (Nat.not_lt_zero t)
  census := by
    rw [hcensus, h.census, hsplits]
    rcases r with i | i | ⟨_ | _, j⟩ <;>
      simp [RowOrigin.kind?, Census.addRow, Stage.count, Stage.early, List.countP_append]

theorem halved (h : Depicts p (.early rows relaxed) s) (hi : rows[i]? = some (.given i))
    (huniq : ∀ t : Nat, rows[t]? = some (.given i) → t = i) {c : Constraint f}
    (hc : s.program.constraints[i]? = some c) :
    Depicts p (.early (rows ++ [.copy i]) (relaxed ++ [i])) (s.halved i c) := by
  have hcount : s.program.numConstraints = rows.length := h.numConstraints
  have hnum : s.program.matrix.numRows = rows.length := h.sound.shaped.rows.trans hcount
  have hrhs : c.rhs = p.rhsOf (.given i) := by
    have := h.constraint i _ hi
    rw [hc, Option.some.injEq] at this
    rw [this]
  refine h.append ⟨⟨?_, ?_⟩, h.sound.matrix.appendRow i⟩ rfl rfl rfl ?_ ?_ ?_ rfl
  · simp [Reduction.halved, LinearProgram.numConstraints, hnum, ← hcount]
  · exact (SparseMatrix.numColumns_appendRow ..).trans h.sound.shaped.columns
  · simp [Reduction.halved, LinearProgram.numConstraints]
  · intro t q hq
    rw [getElem?_constraints_halved hc, hcount, LinearProgram.senseOf_append_singleton]
    obtain ⟨ht, rfl⟩ | ⟨hbelow, hold⟩ := getElem?_concat_cases hq
    · rw [if_pos ht, hrhs]
      rfl
    · rw [if_neg (Nat.ne_of_lt hbelow)]
      -- the one row that is relaxed is `i`, and no other row is given as `i`
      by_cases hti : t = i
      · rw [hti, hi, Option.some.injEq] at hold
        rw [if_pos hti, ← hold, if_pos rfl, hrhs]
      · have hne : q ≠ .given i := fun heq => hti (huniq t (heq ▸ hold))
        rw [if_neg hti, if_neg hne, h.constraint t q hold]
        rfl
  · intro t l
    show (s.program.matrix.appendRow (s.program.matrix.rowAt i)).stored t l = _
    rw [SparseMatrix.stored_appendRow, hnum]
    by_cases ht : t = rows.length
    · rw [if_pos ht, if_pos ht]
      by_cases hl : l < p.numVariables
      · rw [if_pos hl]
        exact h.stored_given i _ hi l hl
      · rw [if_neg hl]
        exact h.stored_early (Nat.le_of_not_lt hl) i
    · rw [if_neg ht, if_neg ht]

theorem enforced (h : Depicts p (.early rows relaxed) s) {v : Variable f}
    (hv : p.vars[j]? = some v) (side : Side) :
    Depicts p (.early (rows ++ [.bound side j]) relaxed) (s.enforced side (v.bound side) j) := by
  have hrows : s.program.constraints.size = rows.length := h.numConstraints
  have hnum : s.program.matrix.numRows = rows.length := h.sound.shaped.rows.trans hrows
  have hj : j < p.numVariables := (Array.getElem?_eq_some_iff.mp hv).1
  have hcolumn : j < s.program.matrix.addRow.2.numColumns := by
    rw [SparseMatrix.numColumns_addRow, h.sound.shaped.columns]
    exact h.lt_numVariables_of_given hv
  have hlast : s.program.numConstraints < s.program.matrix.addRow.2.numRows := by
    rw [SparseMatrix.numRows_addRow, hnum, h.numConstraints]
    exact Nat.lt_succ_self _
  refine h.append ⟨⟨?_, ?_⟩, h.sound.matrix.addRow.write hlast hcolumn 1⟩ rfl rfl rfl ?_ ?_ ?_ rfl
  · simp [Reduction.enforced, LinearProgram.numConstraints, hnum, hrows]
  · exact (SparseMatrix.numColumns_write ..).trans h.sound.shaped.columns
  · simp [Reduction.enforced, LinearProgram.numConstraints]
  · intro t q hq
    simp only [Reduction.enforced, Array.getElem?_push, hrows]
    obtain ⟨ht, rfl⟩ | ⟨hlt, hq⟩ := getElem?_concat_cases hq
    · rw [if_pos ht]
      simp [LinearProgram.senseOf, LinearProgram.rhsOf, hv]
    · rw [if_neg (Nat.ne_of_lt hlt), h.constraint t q hq]
      rfl
  · intro t l
    show (s.program.matrix.addRow.2.write s.program.numConstraints j 1).stored t l = _
    rw [SparseMatrix.stored_write hlast, SparseMatrix.stored_addRow, Binary.one_beq_zero,
      h.numConstraints]
    show (if t = rows.length ∧ l = j then _ else _) = _
    -- the new row was empty, so it stores what is written and nothing else
    by_cases ht : t = rows.length
    · have hnone : s.program.matrix.stored t l = none :=
        s.program.matrix.stored_of_le_row (by omega) l
      rw [if_pos ht, hnone]
      by_cases hl : l = j
      · simp [ht, hl, hj, LinearProgram.storedAt]
      · simp [hl, LinearProgram.storedAt]
    · rw [if_neg ht, if_neg fun hand => ht hand.1]

theorem divided (h : Depicts p (.early rows relaxed) s) (hj : j < s.program.numVariables)
    (hnone : s.splits.get? j = none) : Depicts p (.early rows relaxed) (s.divided j) := by
  have hcount : s.program.numVariables = p.numVariables + s.splits.size := h.numVariables
  have hsize : (s.divided j).splits.size = s.splits.size + 1 := IndexMap.size_insert hnone _
  have hget : ∀ i, (s.divided j).splits.get? i =
      if i = j then some s.program.numVariables else s.splits.get? i :=
    IndexMap.get?_insert _ _ _
  have hvars : ∀ l, (s.divided j).program.vars[l]? =
      if l = s.program.numVariables then some .nonnegative else s.program.vars[l]? := by
    intro l
    exact Array.getElem?_push
  exact {
    sound := h.sound.addVariable
    allotment := by
      have := h.allotment.insert hnone (hcount ▸ hj)
      rwa [← hcount] at this
    numConstraints := h.numConstraints
    numVariables := by
      have hpush : (s.divided j).program.numVariables = s.program.numVariables + 1 :=
        Array.size_push _
      rw [hpush, hcount, hsize]
      rfl
    slackBasis := h.slackBasis
    constraint := h.constraint
    stored_given := h.stored_given
    stored_negative := by
      intro i k hk t
      have hle : p.numVariables ≤ k := by
        rw [hget] at hk
        split at hk
        · cases hk
          omega
        · exact (h.allotment.bounds hk).1
      exact h.stored_early hle t
    stored_slack := fun t r ht => absurd ht (Nat.not_lt_zero t)
    var_given := by
      intro l v hv
      have hlt : l < p.numVariables := (Array.getElem?_eq_some_iff.mp hv).1
      rw [hvars, if_neg (by omega), h.var_given l v hv]
      simp [Stage.early]
    var_negative := by
      intro i k v hk _
      rw [hget] at hk
      -- the new pair has the new column, and all other pairs are below it
      rw [hvars]
      split at hk
      · cases hk
        rw [if_pos rfl]
        rfl
      · have hlt := h.lt_numVariables hk
        have hi := Nat.lt_trans (h.allotment.lt hk) hlt
        rw [if_neg (Nat.ne_of_lt hlt)]
        simpa [Stage.early] using h.var_negative i k _ hk (Array.getElem?_eq_getElem hi)
    var_slack := fun t ht => absurd ht (Nat.not_lt_zero t)
    census := by
      rw [hsize]
      show s.census.addColumn .negativePart = _
      rw [h.census]
      rfl }

end Early

section Fill

variable {rows : List RowOrigin} {relaxed : List Nat} {done : Nat → Bool} {v : Variable f}

theorem getElem?_vars_filled (hjk : j ≠ k) (hv : s.program.vars[j]? = some v) (l : Nat) :
    (s.filled j k v).program.vars[l]? =
      if l = k then s.program.vars[k]?.map ({ · with cost := -v.cost })
      else if l = j then some v.freed else s.program.vars[l]? := by
  simp only [Reduction.filled, Array.getElem?_modify]
  by_cases hlk : l = k
  · subst hlk
    simp [hjk]
  · by_cases hlj : l = j
    · subst hlj
      simp [hjk, Ne.symm hjk, hv, Variable.freed]
    · simp [Ne.symm hlk, hlk, Ne.symm hlj, hlj]

/-- The variables are filled in increasing order. A negative part is above its variable, so
neither the variable nor the negative part of a pair that was filled before is touched again. -/
theorem filled (h : Depicts p ⟨rows, relaxed, done, 0⟩ s) (hk : s.splits.get? j = some k)
    (hv : s.program.vars[j]? = some v)
    (hbelow : ∀ i l, s.splits.get? i = some l → done i = true → i < j) :
    Depicts p ⟨rows, relaxed, fun i => done i || i == j, 0⟩ (s.filled j k v) := by
  have hjk : j < k := h.allotment.lt hk
  have hle : p.numVariables ≤ k := (h.allotment.bounds hk).1
  have hdone : done j = false := by
    cases hd : done j with
    | false => rfl
    | true => exact absurd (hbelow j k hk hd) (Nat.lt_irrefl j)
  have hcolumn : k < s.program.matrix.numColumns := h.sound.shaped.columns ▸ h.lt_numVariables hk
  have hempty : ∀ t, s.program.matrix.stored t k = none := by
    intro t
    rw [h.stored_negative j k hk t]
    simp [hdone]
  have hstored : ∀ t c, (s.filled j k v).program.matrix.stored t c =
      if c = k then (s.program.matrix.stored t j).map (- ·)
      else s.program.matrix.stored t c :=
    stored_mirrored h.sound.matrix hempty
  have hvars := getElem?_vars_filled (Nat.ne_of_lt hjk) hv
  -- a pair is either this one or has nothing in common with its negative part
  have hother : ∀ {i l}, s.splits.get? i = some l → l ≠ k → i ≠ j := by
    rintro i l hl hlk rfl
    rw [hk] at hl
    exact hlk (Option.some.inj hl).symm
  have hsize : (s.filled j k v).program.numVariables = s.program.numVariables := by
    simp [Reduction.filled, LinearProgram.numVariables]
  exact {
    sound := by
      refine ⟨⟨?_, ?_⟩, ?_⟩
      · exact (numRows_mirrored ..).trans h.sound.shaped.rows
      · exact (numColumns_mirrored ..).trans (h.sound.shaped.columns.trans hsize.symm)
      · refine wellFormed_mirrored h.sound.matrix hcolumn fun e he => ?_
        exact h.sound.matrix.lt_numRows
          ((IndexMap.get?_eq_some_iff (h.sound.matrix.sorted_column j)).mpr he)
    allotment := h.allotment
    numConstraints := h.numConstraints
    numVariables := hsize.trans h.numVariables
    slackBasis := h.slackBasis
    constraint := h.constraint
    stored_given := by
      intro t r hr l hl
      rw [hstored, if_neg (Nat.ne_of_lt (Nat.lt_of_lt_of_le hl hle))]
      exact h.stored_given t r hr l hl
    stored_negative := by
      intro i l hl t
      rw [hstored, hstored]
      by_cases hlk : l = k
      · obtain rfl : i = j := h.allotment.injective (hlk ▸ hl) hk
        rw [if_pos hlk, if_neg (Nat.ne_of_lt hjk)]
        simp
      · have hij := hother hl hlk
        rw [if_neg hlk, h.stored_negative i l hl t]
        by_cases hi : done i = true
        · have hik : i ≠ k := Nat.ne_of_lt (Nat.lt_trans (hbelow i l hl hi) hjk)
          simp [hi, hik]
        · simp [hi, hij]
    stored_slack := fun t r ht => absurd ht (Nat.not_lt_zero t)
    var_given := by
      intro l u hu
      have hlt : l < p.numVariables := (Array.getElem?_eq_some_iff.mp hu).1
      have hgiven := h.var_given l u hu
      rw [hvars, if_neg (by omega)]
      by_cases hlj : l = j
      · subst hlj
        obtain rfl : v = u := by simpa [hv, hdone] using hgiven
        have hself : (s.filled l k v).splits.get? l = some k := hk
        simp [hself]
      · rw [if_neg hlj, hgiven]
        simp [Reduction.filled, hlj]
    var_negative := by
      intro i l u hl hu
      rw [hvars] at hu ⊢
      have hil : i < l := h.allotment.lt hl
      by_cases hlk : l = k
      · obtain rfl : i = j := h.allotment.injective (hlk ▸ hl) hk
        rw [if_neg (Nat.ne_of_lt hjk), if_pos rfl, Option.some.injEq] at hu
        rw [if_pos hlk, h.var_negative i k v hk hv, ← hu]
        simp [Variable.freed]
      · have hij := hother hl hlk
        rw [if_neg hlk]
        -- along a chain, `j` can be the negative part of `i` and `k` can be split in turn
        by_cases hlj : l = j
        · rw [if_neg (by omega), if_neg hij] at hu
          have hself := h.var_negative i l u hl hu
          rw [hlj, hv, Option.some.injEq] at hself
          rw [if_pos hlj, hself]
          simp [Variable.freed, Variable.nonnegative, hij]
        · rw [if_neg hlj]
          by_cases hik : i = k
          · have hi : done i = false := by
              cases hd : done i with
              | false => rfl
              | true => exact absurd (hbelow i l hl hd) (by omega)
            rw [if_pos hik] at hu
            obtain ⟨w, hw, -⟩ := Option.map_eq_some_iff.mp hu
            rw [h.var_negative i l w hl (hik ▸ hw)]
            simp [hi, hij]
          · rw [if_neg hik, if_neg hij] at hu
            rw [h.var_negative i l u hl hu]
            simp [hij]
    var_slack := fun t ht => absurd ht (Nat.not_lt_zero t)
    census := h.census }

end Fill

/-- A slack is a new column, so whatever the reduction holds in the old columns stays. -/
theorem slackened {rows : List RowOrigin} {relaxed : List Nat} {done : Nat → Bool}
    (h : Depicts p ⟨rows, relaxed, done, i⟩ s) {r : RowOrigin} (hr : rows[i]? = some r) :
    Depicts p ⟨rows, relaxed, done, i + 1⟩ (s.slackened i (p.sideOf r)) := by
  have hlast : s.program.numVariables = p.numVariables + s.splits.size + i := h.numVariables
  have hi : i < s.program.matrix.numRows := by
    rw [h.sound.shaped.rows, h.numConstraints]
    exact (List.getElem?_eq_some_iff.mp hr).1
  have hcolumn : s.program.numVariables < s.program.matrix.addColumn.2.numColumns := by
    rw [SparseMatrix.numColumns_addColumn, h.sound.shaped.columns]
    exact Nat.lt_succ_self _
  have hstored : ∀ t l, (s.slackened i (p.sideOf r)).program.matrix.stored t l =
      if t = i ∧ l = s.program.numVariables then some (p.sideOf r).slack
      else s.program.matrix.stored t l := by
    intro t l
    show (s.program.matrix.addColumn.2.write i s.program.numVariables _).stored t l = _
    rw [SparseMatrix.stored_write (by exact hi), Side.slack_beq_zero, SparseMatrix.stored_addColumn]
    rfl
  have hold : ∀ {t l}, l < s.program.numVariables →
      (s.slackened i (p.sideOf r)).program.matrix.stored t l = s.program.matrix.stored t l := by
    intro t l hl
    rw [hstored, if_neg fun hand => Nat.ne_of_lt hl hand.2]
  have hvars : ∀ l, (s.slackened i (p.sideOf r)).program.vars[l]? =
      if l = s.program.numVariables then some .nonnegative else s.program.vars[l]? :=
    fun l => Array.getElem?_push
  exact {
    sound := by
      refine ⟨⟨?_, ?_⟩, h.sound.matrix.addColumn.write hi hcolumn _⟩
      · simpa [Reduction.slackened, LinearProgram.numConstraints] using h.sound.shaped.rows
      · simpa [Reduction.slackened, LinearProgram.numVariables] using h.sound.shaped.columns
    allotment := h.allotment
    numConstraints := by
      rw [← h.numConstraints]
      simp [Reduction.slackened, LinearProgram.numConstraints]
    numVariables := by
      have hpush : (s.slackened i (p.sideOf r)).program.numVariables = s.program.numVariables + 1 :=
        Array.size_push _
      rw [hpush, hlast]
      rfl
    slackBasis := by
      show (s.slackBasis.push s.program.numVariables).toList = _
      rw [Array.toList_push, h.slackBasis, hlast, List.range_succ, List.map_append]
      rfl
    constraint := by
      intro t q hq
      have ht := h.constraint t q hq
      simp only [Reduction.slackened, Array.getElem?_modify, ht]
      by_cases hti : i = t
      · simp [hti]
      · have hiff : t < i + 1 ↔ t < i := by omega
        simp [hti, hiff]
    stored_given := by
      intro t q hq l hl
      rw [hold (by omega)]
      exact h.stored_given t q hq l hl
    stored_negative := by
      intro j k hk t
      have hlt := h.lt_numVariables hk
      rw [hold hlt, hold (Nat.lt_trans (h.allotment.lt hk) hlt)]
      exact h.stored_negative j k hk t
    stored_slack := by
      intro t q ht hq a
      rw [hstored]
      show (if a = i ∧ p.numVariables + s.splits.size + t = s.program.numVariables then _
        else s.program.matrix.stored a (p.numVariables + s.splits.size + t)) = _
      -- the last slack is in the new column, and the others are old columns
      by_cases hti : t = i
      · subst hti
        obtain rfl : r = q := by simpa [hr] using hq
        rw [h.sound.matrix.stored_of_le_column (Nat.le_of_eq (h.sound.shaped.columns.trans hlast))]
        simp [hlast]
      · rw [if_neg (by omega)]
        exact h.stored_slack t q (by dsimp only at ht ⊢; omega) hq a
    var_given := by
      intro l v hv
      have hlt : l < p.numVariables := (Array.getElem?_eq_some_iff.mp hv).1
      rw [hvars, if_neg (by omega)]
      exact h.var_given l v hv
    var_negative := by
      intro j k v hk hv
      have hlt := h.lt_numVariables hk
      have hjk := h.allotment.lt hk
      rw [hvars, if_neg (by omega)] at hv ⊢
      exact h.var_negative j k v hk hv
    var_slack := by
      intro t ht
      rw [hvars]
      show (if p.numVariables + s.splits.size + t = s.program.numVariables then _
        else s.program.vars[p.numVariables + s.splits.size + t]?) = _
      by_cases hti : t = i
      · rw [if_pos (by omega)]
      · rw [if_neg (by omega)]
        exact h.var_slack t (by dsimp only at ht ⊢; omega)
    census := by
      show s.census.addColumn .slack = _
      rw [h.census]
      rfl }

end Depicts

end StandardLp.Reduction
