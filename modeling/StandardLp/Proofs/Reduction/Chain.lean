import Mathlib.Algebra.BigOperators.Group.List.Lemmas
import Mathlib.Algebra.BigOperators.Intervals
import Mathlib.Algebra.BigOperators.Ring.Finset
import Mathlib.Algebra.Order.BigOperators.Group.Finset
import Mathlib.Tactic.Linarith
import StandardLp.Proofs.Reduction.Allotment

/-!
Chains of negative parts and what they stand for. The number that a variable stands for is its own
column less what its negative part stands for, which makes an alternating sum along the chain. A
row in which every negative part has the opposite coefficient of its variable sees nothing else of
the split columns (`Allotment.sum_eq_sum_chainValue`).
-/

namespace StandardLp.Reduction

/-- The column `j`, the column of its negative part, the column of the negative part of that, and
so on. The entries are in increasing order and a negative part is above its variable, so one pass
finds them all. -/
def chain : List (Nat × Nat) → Nat → List Nat
  | [], j => [j]
  | e :: rest, j => if e.1 = j then j :: chain rest e.2 else chain rest j

/-- What column `j` stands for at `y`: `y j` less `y` at its negative part, and so on with signs in
turn. -/
def chainValue (splits : IndexMap Nat) (y : ℕ → ℚ) (j : ℕ) : ℚ :=
  ((chain splits.entries j).map y).alternatingSum

/-- What the columns stand for at `y`. As long as the negative parts are empty, every column stands
for itself. -/
def standsFor (filled : Bool) (splits : IndexMap Nat) (y : ℕ → ℚ) : ℕ → ℚ :=
  if filled then chainValue splits y else y

variable {splits : IndexMap Nat} {n j k : ℕ}

theorem chain_of_none (h : splits.get? j = none) : chain splits.entries j = [j] := by
  obtain ⟨l⟩ := splits
  induction l with
  | nil => rfl
  | cons e rest ih =>
    rw [IndexMap.get?_cons] at h
    by_cases hj : j = e.1
    · rw [if_pos hj] at h
      cases h
    · rw [if_neg hj] at h
      rw [chain, if_neg (Ne.symm hj)]
      exact ih h

theorem chain_of_mem {l : List (Nat × Nat)} (hsorted : l.Pairwise fun d e => d.1 < e.1)
    (hlt : ∀ e ∈ l, e.1 < e.2) (h : (j, k) ∈ l) : chain l j = j :: chain l k := by
  induction l with
  | nil => cases h
  | cons e rest ih =>
    obtain ⟨habove, hrest⟩ := List.pairwise_cons.mp hsorted
    obtain heq | hmem := List.mem_cons.mp h
    · subst heq
      have hjk : j < k := hlt (j, k) List.mem_cons_self
      rw [chain, chain, if_pos rfl, if_neg (Nat.ne_of_lt hjk)]
    · have hej : e.1 < j := habove (j, k) hmem
      have hjk : j < k := hlt (j, k) h
      rw [chain, chain, if_neg (Nat.ne_of_lt hej), if_neg (by omega)]
      exact ih hrest (fun d hd => hlt d (List.mem_cons_of_mem _ hd)) hmem

theorem chainValue_of_none (h : splits.get? j = none) (y : ℕ → ℚ) :
    chainValue splits y j = y j := by
  rw [chainValue, chain_of_none h]
  rfl

namespace Allotment

variable (h : Allotment splits n)
include h

theorem chainValue_of_some (hk : splits.get? j = some k) (y : ℕ → ℚ) :
    chainValue splits y j = y j - chainValue splits y k := by
  have hmem := (IndexMap.get?_eq_some_iff h.sorted).mp hk
  have hlt : ∀ e ∈ splits.entries, e.1 < e.2 :=
    fun e he => h.lt ((IndexMap.get?_eq_some_iff h.sorted).mpr he)
  rw [chainValue, chain_of_mem h.sorted hlt hmem, List.map_cons, List.alternatingSum_cons]
  rfl

theorem eq_chainValue_add (y : ℕ → ℚ) (j : ℕ) :
    y j = chainValue splits y j + (splits.get? j).elim 0 (chainValue splits y) := by
  cases hk : splits.get? j with
  | none => rw [chainValue_of_none hk, Option.elim_none, add_zero]
  | some k => rw [h.chainValue_of_some hk, Option.elim_some, sub_add_cancel]

/-- Columns that are made of numbers `V` stand for these numbers. The induction runs down from the
last column, since negative parts are above their variables. -/
theorem chainValue_eq {y V : ℕ → ℚ}
    (hV : ∀ j, j < n + splits.size → y j = V j + (splits.get? j).elim 0 V)
    (hj : j < n + splits.size) : chainValue splits y j = V j := by
  induction hm : n + splits.size - j using Nat.strong_induction_on generalizing j with
  | _ m ih =>
    cases hk : splits.get? j with
    | none => rw [chainValue_of_none hk, hV j hj, hk, Option.elim_none, add_zero]
    | some k =>
      have hjk := h.lt hk
      have hkn := (h.bounds hk).2
      rw [h.chainValue_of_some hk, ih (n + splits.size - k) (by omega) hkn rfl, hV j hj, hk,
        Option.elim_some, add_sub_cancel_right]

/-- The negative parts are the columns from `n` on, each of one variable. -/
theorem sum_negativeParts (g V : ℕ → ℚ) (hg : ∀ j k, splits.get? j = some k → g k = -g j) :
    ∑ c ∈ Finset.range (n + splits.size), g c * (splits.get? c).elim 0 V =
      -∑ k ∈ Finset.Ico n (n + splits.size), g k * V k := by
  have hsplit : ∀ c ∈ Finset.range (n + splits.size),
      g c * (splits.get? c).elim 0 V ≠ 0 → (splits.get? c).isSome = true := by
    intro c _ hne
    cases hk : splits.get? c with
    | none => simp [hk] at hne
    | some k => rfl
  rw [← Finset.sum_filter_of_ne hsplit, ← Finset.sum_neg_distrib]
  -- a variable that is split is replaced by its negative part
  refine Finset.sum_bij (fun c _ => (splits.get? c).getD 0) ?_ ?_ ?_ ?_
  · intro c hc
    obtain ⟨k, hk⟩ := Option.isSome_iff_exists.mp (Finset.mem_filter.mp hc).2
    rw [hk]
    exact Finset.mem_Ico.mpr (h.bounds hk)
  · intro c hc d hd heq
    obtain ⟨k, hk⟩ := Option.isSome_iff_exists.mp (Finset.mem_filter.mp hc).2
    obtain ⟨l, hl⟩ := Option.isSome_iff_exists.mp (Finset.mem_filter.mp hd).2
    rw [hk, hl, Option.getD_some, Option.getD_some] at heq
    exact h.injective hk (heq ▸ hl)
  · intro k hk
    obtain ⟨hle, hlt⟩ := Finset.mem_Ico.mp hk
    obtain ⟨c, hc⟩ := h.surjective hle hlt
    have hck := h.lt hc
    refine ⟨c, Finset.mem_filter.mpr ⟨Finset.mem_range.mpr (by omega), ?_⟩, ?_⟩
    · rw [hc]
      rfl
    · rw [hc]
      rfl
  · intro c hc
    obtain ⟨k, hk⟩ := Option.isSome_iff_exists.mp (Finset.mem_filter.mp hc).2
    rw [hk, Option.elim_some, Option.getD_some, hg c k hk, neg_mul, neg_neg]

theorem sum_eq_sum_chainValue {g : ℕ → ℚ} (hg : ∀ j k, splits.get? j = some k → g k = -g j)
    (y : ℕ → ℚ) : ∑ c ∈ Finset.range (n + splits.size), g c * y c =
      ∑ j ∈ Finset.range n, g j * chainValue splits y j := by
  have hsplit : ∀ c ∈ Finset.range (n + splits.size), g c * y c =
      g c * chainValue splits y c + g c * (splits.get? c).elim 0 (chainValue splits y) := by
    intro c _
    rw [← mul_add, ← h.eq_chainValue_add y c]
  rw [Finset.sum_congr rfl hsplit, Finset.sum_add_distrib, h.sum_negativeParts g _ hg,
    ← Finset.sum_range_add_sum_Ico _ (Nat.le_add_right n splits.size), add_neg_cancel_right]

/-- A row in which negative parts have the opposite coefficients of their variables once they are
filled, and none before. -/
theorem sum_eq_sum_standsFor {g : ℕ → ℚ} {filled : Bool}
    (hg : ∀ j k, splits.get? j = some k → g k = if filled then -g j else 0) (y : ℕ → ℚ) :
    ∑ c ∈ Finset.range (n + splits.size), g c * y c =
      ∑ j ∈ Finset.range n, g j * standsFor filled splits y j := by
  cases filled with
  | true => exact h.sum_eq_sum_chainValue hg y
  | false =>
    rw [Finset.sum_range_add]
    refine add_eq_left.mpr (Finset.sum_eq_zero fun c hc => ?_)
    have hlt := Nat.add_lt_add_left (Finset.mem_range.mp hc) n
    obtain ⟨j, hj⟩ := h.surjective (Nat.le_add_right n c) hlt
    have hzero : g (n + c) = 0 := hg j _ hj
    rw [hzero, zero_mul]

/-- Numbers for the variables at first, of which those that are not split are nonnegative, are
what some nonnegative columns stand for. Every negative part stands for the same large number. -/
theorem exists_lift {x : ℕ → ℚ} (hx : ∀ j, j < n → splits.get? j = none → 0 ≤ x j) :
    ∃ y : ℕ → ℚ, (∀ c, c < n + splits.size → 0 ≤ y c) ∧
      ∀ j, j < n → chainValue splits y j = x j := by
  -- every column is large enough to take away what its negative part stands for
  let bound : ℚ := ∑ j ∈ Finset.range n, |x j|
  let V : ℕ → ℚ := fun c => if c < n then x c else bound
  have hbound : 0 ≤ bound := Finset.sum_nonneg fun j _ => abs_nonneg (x j)
  have hV : ∀ k, n ≤ k → V k = bound := fun k hk => if_neg (Nat.not_lt_of_le hk)
  refine ⟨fun c => V c + (splits.get? c).elim 0 V, ?_, ?_⟩
  · intro c hc
    dsimp only
    by_cases hcn : c < n
    · have hVc : V c = x c := if_pos hcn
      cases hk : splits.get? c with
      | none =>
        rw [Option.elim_none, add_zero, hVc]
        exact hx c hcn hk
      | some k =>
        have hle : |x c| ≤ bound :=
          Finset.single_le_sum (f := fun j => |x j|) (fun j _ => abs_nonneg (x j))
            (Finset.mem_range.mpr hcn)
        rw [Option.elim_some, hVc, hV k (h.bounds hk).1]
        linarith [neg_abs_le (x c)]
    · rw [hV c (Nat.le_of_not_lt hcn)]
      cases hk : splits.get? c with
      | none => simpa using hbound
      | some k =>
        rw [Option.elim_some, hV k (h.bounds hk).1]
        exact add_nonneg hbound hbound
  · intro j hj
    rw [h.chainValue_eq (V := V) (fun _ _ => rfl) (by omega)]
    exact if_pos hj

end Allotment

end StandardLp.Reduction
