import StandardLp.Proofs.Meaning.Projection
import StandardLp.Proofs.Reduction.Columns

/-!
What splits by hand do to the solutions. A run with additional splits goes through the same phases
and splits more variables, so it exports a standard form that stands for more points. These are
points at which a variable that was split in addition is negative (`exists_value_negative`), since
its lower bound of zero never becomes a row.
-/

namespace StandardLp

variable {f : Format}

def StandardForm.values (F : StandardForm f) (splits : IndexMap Nat) (n : ℕ) : Set (Fin n → ℚ) :=
  Prod.fst '' F.projection splits n

namespace LinearProgram

variable {p : LinearProgram f} {splits splits' : IndexMap Nat} {x : ℕ → ℚ}

theorem relaxed_iff_of_subset
    (h : ∀ j, j < p.numVariables → (splits.get? j).isSome → (splits'.get? j).isSome) :
    p.Relaxed splits x ↔ p.Relaxed splits' x ∧ ∀ j, j < p.numVariables →
      (splits'.get? j).isSome → splits.get? j = none → 0 ≤ x j := by
  constructor
  · rintro ⟨hrows, hlower, hupper, hnonneg⟩
    refine ⟨⟨hrows, hlower, hupper, fun j hj hnone => hnonneg j hj ?_⟩,
      fun j hj _ hnone => hnonneg j hj hnone⟩
    rw [← Option.not_isSome_iff_eq_none] at hnone ⊢
    exact mt (h j hj) hnone
  · rintro ⟨⟨hrows, hlower, hupper, hnonneg⟩, hmore⟩
    refine ⟨hrows, hlower, hupper, fun j hj hnone => ?_⟩
    cases hk : splits'.get? j with
    | none => exact hnonneg j hj hk
    | some k => exact hmore j hj (by rw [hk]; rfl) hnone

end LinearProgram

namespace Reduction

variable {p : LinearProgram f} {s t : Reduction f} {calls calls' : List Call} {c : Call}

/-! ### Runs with additional splits -/

/-- The calls `calls'` are `calls` with additional splits in between. -/
inductive Interspersed : List Call → List Call → Prop where
  | nil : Interspersed [] []
  | both (c : Call) {calls calls' : List Call} (h : Interspersed calls calls') :
      Interspersed (c :: calls) (c :: calls')
  | split (j : ℕ) {calls calls' : List Call} (h : Interspersed calls calls') :
      Interspersed calls (.split j :: calls')

/-- The reduction `t` of `p` is where `s` is, with more variables split. -/
structure Ahead (p : LinearProgram f) (s t : Reduction f) : Prop where
  left : Reduces p s
  right : Reduces p t
  phase : t.phase = s.phase
  splits : ∀ j, j < p.numVariables → (s.splits.get? j).isSome → (t.splits.get? j).isSome

namespace Reduces

theorem phase_call_of_inOrder (h : Reduces p s) (horder : c.InOrder s.phase) :
    (s.call c).2.phase.rank = s.phase.rank + c.numSteps := by
  by_cases hrange : c.InRange s.program.numVariables
  · obtain ⟨reply, s', hcall, hrank⟩ := h.followsProtocol.admitted c horder hrange
    rw [hcall]
    exact hrank
  · cases c with
    | split j =>
      rw [h.followsProtocol.out_of_range j horder (Nat.le_of_not_lt hrange)]
      rfl
    | _ => exact absurd trivial hrange

/-- The phase after a call depends on the phase before it and on nothing else. -/
theorem phase_call_congr (hs : Reduces p s) (ht : Reduces p t) (hphase : t.phase = s.phase)
    (c : Call) : (t.call c).2.phase = (s.call c).2.phase := by
  by_cases horder : c.InOrder s.phase
  · apply Phase.rank_injective
    rw [hs.phase_call_of_inOrder horder, ht.phase_call_of_inOrder (hphase ▸ horder), hphase]
  · rw [hs.followsProtocol.out_of_order c horder,
      ht.followsProtocol.out_of_order c (hphase ▸ horder)]
    exact hphase

end Reduces

namespace Ahead

theorem call (h : Ahead p s t) (c : Call) : Ahead p (s.call c).2 (t.call c).2 where
  left := h.left.call c
  right := h.right.call c
  phase := h.left.phase_call_congr h.right h.phase c
  splits j hj hsome := by
    rw [h.right.isSome_splits_call]
    obtain hbefore | ⟨rfl, reply, hok⟩ | ⟨hphase, hbounded⟩ :=
      (h.left.isSome_splits_call c j).mp hsome
    · exact .inl (h.splits j hj hbefore)
    -- the split was in order for `s`, and `j` is a variable at first
    · have horder : (Call.split j).InOrder t.phase := by
        rw [h.phase]
        intro hfilled
        rw [h.left.followsProtocol.out_of_order (.split j) (not_not_intro hfilled)] at hok
        cases hok
      have hrange := h.right.depicts.lt_numVariables_of_given (Array.getElem?_eq_getElem hj)
      obtain ⟨reply', t', hcall, -⟩ := h.right.followsProtocol.admitted _ horder hrange
      exact .inr (.inl ⟨rfl, reply', congrArg Prod.fst hcall⟩)
    · rw [h.left.phase_call_congr h.right h.phase c]
      exact .inr (.inr ⟨hphase, hbounded⟩)

theorem call_split (h : Ahead p s t) (j : ℕ) : Ahead p s (t.call (.split j)).2 where
  left := h.left
  right := h.right.call (.split j)
  phase := by
    obtain ⟨-, reply, t', hcall, hrank, -⟩ | ⟨e, hcall⟩ := h.right.call_cases (.split j)
    · rw [hcall]
      exact (Phase.rank_injective hrank).trans h.phase
    · rw [hcall]
      exact h.phase
  splits i hi hsome := by
    obtain ⟨k, hk⟩ := Option.isSome_iff_exists.mp (h.splits i hi hsome)
    rw [(h.right.precedes_call (.split j)).splits i k hk]
    rfl

theorem run (h : Ahead p s t) (hcalls : Interspersed calls calls') :
    Ahead p (s.run calls) (t.run calls') := by
  induction hcalls generalizing s t with
  | nil => exact h
  | both c _ ih => exact ih (h.call c)
  | split j _ ih => exact ih (h.call_split j)

end Ahead

theorem ahead_start (hp : p.Sound) : Ahead p (start p) (start p) where
  left := reduces_start hp
  right := reduces_start hp
  phase := rfl
  splits _ _ hsome := hsome

/-! ### Values at solutions -/

theorem Depicts.mem_values_iff (h : Depicts p (p.stageAt .slacksAdded) s) (hp : p.Admissible)
    {x : Fin p.numVariables → ℚ} : x ∈ s.form.values s.splits p.numVariables ↔
      ∃ z, p.Relaxed s.splits z ∧ x = fun j : Fin p.numVariables => z j := by
  constructor
  · rintro ⟨-, ⟨y, hy, rfl⟩, rfl⟩
    have hz := (h.exists_solves_iff (x := chainValue s.splits y)).mp ⟨y, hy, fun _ _ => rfl⟩
    exact ⟨chainValue s.splits y, hp.relaxed_iff.mpr hz, rfl⟩
  · rintro ⟨z, hz, rfl⟩
    obtain ⟨y, hy, hyz⟩ := h.exists_solves_iff.mpr (hp.relaxed_iff.mp hz)
    refine ⟨_, ⟨y, hy, rfl⟩, ?_⟩
    exact funext fun j => hyz j j.isLt

theorem Ahead.values_subset (h : Ahead p s t) (hp : p.Admissible) (hphase : s.phase = .slacksAdded) :
    s.form.values s.splits p.numVariables ⊆ t.form.values t.splits p.numVariables := by
  have hs := h.left.depicts_of_phase hphase
  have ht := h.right.depicts_of_phase (h.phase.trans hphase)
  intro x hx
  obtain ⟨z, hz, rfl⟩ := (hs.mem_values_iff hp).mp hx
  exact (ht.mem_values_iff hp).mpr
    ⟨z, ((LinearProgram.relaxed_iff_of_subset h.splits).mp hz).1, rfl⟩

theorem Ahead.values_eq_iff (h : Ahead p s t) (hp : p.Admissible) (hphase : s.phase = .slacksAdded) :
    s.form.values s.splits p.numVariables = t.form.values t.splits p.numVariables ↔
      ∀ x, p.Relaxed t.splits x → ∀ j, j < p.numVariables → (t.splits.get? j).isSome →
        s.splits.get? j = none → 0 ≤ x j := by
  have hs := h.left.depicts_of_phase hphase
  have ht := h.right.depicts_of_phase (h.phase.trans hphase)
  constructor
  · intro heq x hx j hj _ hnone
    have hmem := (ht.mem_values_iff hp).mpr ⟨x, hx, rfl⟩
    rw [← heq] at hmem
    obtain ⟨z, hz, hxz⟩ := (hs.mem_values_iff hp).mp hmem
    have hat : x j = z j := congrFun hxz ⟨j, hj⟩
    rw [hat]
    exact hz.nonneg j hj hnone
  · intro hnonneg
    apply Set.Subset.antisymm (h.values_subset hp hphase)
    intro x hx
    obtain ⟨z, hz, rfl⟩ := (ht.mem_values_iff hp).mp hx
    exact (hs.mem_values_iff hp).mpr
      ⟨z, (LinearProgram.relaxed_iff_of_subset h.splits).mpr ⟨hz, hnonneg z hz⟩, rfl⟩

/-- Of two complete runs that differ in additional splits, the one with more splits exports a
standard form that stands for all the points that the other one stands for. They are the same
points exactly if what is kept of the program does not let a variable be negative that only the one
run splits. -/
theorem run_values_eq_iff (hp : p.Built) (hfinite : p.Finite)
    (hcalls : Interspersed calls calls')
    (hphase : ((start p).run calls).phase = .slacksAdded) :
    ((start p).run calls').phase = .slacksAdded ∧
      ∃ F F', ((start p).run calls).finished.1 = .ok F ∧ ((start p).run calls').finished.1 = .ok F' ∧
        F.Finite ∧ F'.Finite ∧
        F.values ((start p).run calls).splits p.numVariables ⊆
          F'.values ((start p).run calls').splits p.numVariables ∧
        (F.values ((start p).run calls).splits p.numVariables =
            F'.values ((start p).run calls').splits p.numVariables ↔
          ∀ x, p.Relaxed ((start p).run calls').splits x → ∀ j, j < p.numVariables →
            (((start p).run calls').splits.get? j).isSome →
            ((start p).run calls).splits.get? j = none → 0 ≤ x j) := by
  have h := (ahead_start hp.sound).run hcalls
  -- nothing but the relation between the two reductions is used from here on
  generalize (start p).run calls = s at hphase h ⊢
  generalize (start p).run calls' = t at h ⊢
  have hphase' : t.phase = .slacksAdded := h.phase.trans hphase
  have hs := h.left.depicts_of_phase hphase
  have ht := h.right.depicts_of_phase hphase'
  refine ⟨hphase', s.form, t.form, ?_, ?_,
    form_finite hs.sound (hs.program_finite hfinite hp.admissible),
    form_finite ht.sound (ht.program_finite hfinite hp.admissible),
    h.values_subset hp.admissible hphase, h.values_eq_iff hp.admissible hphase⟩
  · rw [finished, run_finish hphase]
  · rw [finished, run_finish hphase']

/-- A variable that is split for its bounds can be split by hand before that, and so can its
negative part. -/
theorem run_values_eq_iff_bounded :
    let p : LinearProgram .binary64 := ⟨.zero 0 1, #[], #[⟨-1, 1, 1⟩]⟩
    let s := (start p).run [.reduce true]
    let t := (start p).run [.split 0, .split 1, .reduce true]
    s.splits.entries = [(0, 1)] ∧ t.splits.entries = [(0, 1), (1, 2)] ∧
      ∃ F F', s.finished.1 = .ok F ∧ t.finished.1 = .ok F' ∧
        F.values s.splits p.numVariables = F'.values t.splits p.numVariables := by
  intro p s t
  have hbuilt : LinearProgram.ofParts p.matrix #[] #[] #[(-1, 1)] #[1] = .ok p := by
    decide +kernel
  have hp : p.Built := .ofParts (.zero 0 1) hbuilt
  have hfinite : p.Finite := ⟨by decide +kernel, by decide +kernel, by decide +kernel⟩
  have hcalls : Interspersed [.reduce true] [.split 0, .split 1, .reduce true] :=
    .split 0 (.split 1 (.both _ .nil))
  obtain ⟨-, F, F', hF, hF', -, -, -, heq⟩ :=
    run_values_eq_iff hp hfinite hcalls (by decide +kernel)
  refine ⟨by decide +kernel, by decide +kernel, F, F', hF, hF', heq.mpr ?_⟩
  intro x _ j hj _ hnone
  obtain rfl : j = 0 := Nat.lt_one_iff.mp hj
  exact absurd hnone (by decide +kernel)

/-- A split by hand of a variable that cannot be negative, of which a solution then stands for minus
one. -/
theorem exists_value_negative :
    let p : LinearProgram .binary64 := ⟨.zero 0 1, #[], #[⟨0, .infinity, 1⟩]⟩
    let s := (start p).run [.reduce true]
    let t := (start p).run [.split 0, .reduce true]
    p.Built ∧ p.Finite ∧ ((start p).call (.split 0)).1 = .ok (.column 1) ∧
      ∃ F F', s.finished.1 = .ok F ∧ t.finished.1 = .ok F' ∧
        (fun _ => -1) ∈ F'.values t.splits p.numVariables ∧
        (fun _ => -1) ∉ F.values s.splits p.numVariables := by
  intro p s t
  have hbuilt : LinearProgram.ofParts p.matrix #[] #[] #[(0, .infinity)] #[1] = .ok p := by
    decide +kernel
  have hp : p.Built := .ofParts (.zero 0 1) hbuilt
  have hfinite : p.Finite := ⟨by decide +kernel, by decide +kernel, by decide +kernel⟩
  have hphase : s.phase = .slacksAdded := by decide +kernel
  have hphase' : t.phase = .slacksAdded := by decide +kernel
  have h : Ahead p s t := (ahead_start hp.sound).run (.split 0 (.both (.reduce true) .nil))
  have hs := h.left.depicts_of_phase hphase
  have ht := h.right.depicts_of_phase hphase'
  refine ⟨hp, hfinite, by decide +kernel, s.form, t.form, ?_, ?_, ?_, ?_⟩
  · rw [finished, run_finish hphase]
  · rw [finished, run_finish hphase']
  · refine (ht.mem_values_iff hp.admissible).mpr ⟨fun _ => -1, ?_, rfl⟩
    have hvar : ∀ (j : ℕ) (v : Variable .binary64), p.vars[j]? = some v → v = ⟨0, .infinity, 1⟩ := by
      intro j v hv
      cases j with
      | zero => exact (Option.some.inj hv).symm
      | succ j => cases hv
    refine ⟨fun i c hc => (by cases hc), fun j v hv _ hzero => ?_, fun j v hv hupper => ?_,
      fun j hj hnone => ?_⟩
    · rw [hvar j v hv] at hzero
      exact absurd hzero (by decide +kernel)
    · rw [hvar j v hv] at hupper
      exact absurd hupper (by decide +kernel)
    · obtain rfl : j = 0 := Nat.lt_one_iff.mp hj
      exact absurd hnone (by decide +kernel)
  · intro hmem
    obtain ⟨z, hz, heq⟩ := (hs.mem_values_iff hp.admissible).mp hmem
    have hnonneg := hz.nonneg 0 (by decide) (by decide +kernel)
    have hat : (-1 : ℚ) = z 0 := congrFun heq ⟨0, by decide⟩
    rw [← hat] at hnonneg
    norm_num at hnonneg

end Reduction

end StandardLp
