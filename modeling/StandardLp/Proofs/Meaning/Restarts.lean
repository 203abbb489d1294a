import StandardLp.Proofs.Meaning.Encoding
import StandardLp.Proofs.Reduction.Growth

/-!
Reductions of one program one after the other, each started on what the one before has left. Left
behind may be copies of equalities, bound rows, negative parts that were never filled and slacks
that are ordinary variables by now, and the next reduction takes all of them for parts of its
program. None of them cuts off a point or adds one.
-/

namespace StandardLp

variable {f : Format}

/-- The numbers of the first `n` variables at the solutions, with the costs of the solutions. -/
def StandardForm.readings (F : StandardForm f) (part : ℕ → Option ℕ) (n : ℕ) :
    Set ((Fin n → ℚ) × ℚ) :=
  {q | ∃ y, F.Solves y ∧ q = (fun j : Fin n => LinearProgram.partValue part y j, F.costAt y)}

namespace LinearProgram

def almostFeasibleSet (p : LinearProgram f) : Set ((Fin p.numVariables → ℚ) × ℚ) :=
  {q | ∃ x, p.AlmostFeasible x ∧ q = (fun j : Fin p.numVariables => x j, p.costAt x)}

/-- The program is sound, its bounds leave room for a number and all other numbers are finite. -/
structure Regular (p : LinearProgram f) : Prop where
  sound : p.Sound
  admissible : p.Admissible
  finite : p.Finite

end LinearProgram

namespace Reduction

/-- The reductions of a sequence of runs on `p`. After its calls a reduction is finished, whether it
is complete or not, or dropped as it is. -/
def restarts (p : LinearProgram f) : List (List Call × Bool) → List (Reduction f)
  | [] => []
  | (calls, finish) :: rest =>
    let s := (start p).run calls
    s :: restarts (if finish then s.finished.2.program else s.program) rest

/-- The negative part of variable `j`, if one of the reductions has filled it. -/
def part (ss : List (Reduction f)) (j : ℕ) : Option ℕ := ss.findSome? (·.filledPart j)

variable {p : LinearProgram f} {s t : Reduction f}

theorem program_finished (s : Reduction f) : s.finished.2.program = s.program := by
  by_cases hphase : s.phase = .slacksAdded
  · rw [finished, run_finish hphase]
  · rw [finished, finish, run_enter_of_ne hphase]

theorem restarts_cons (r : List Call × Bool) (rest : List (List Call × Bool)) :
    restarts p (r :: rest) = (start p).run r.1 :: restarts ((start p).run r.1).program rest := by
  obtain ⟨calls, finish⟩ := r
  rw [restarts, program_finished, ite_self]

theorem part_cons (ss : List (Reduction f)) :
    part (s :: ss) = fun j => (s.filledPart j).or (part ss j) := by
  funext j
  rw [part, List.findSome?_cons]
  cases s.filledPart j with
  | none => rfl
  | some k => rfl

theorem part_singleton : part [s] = s.filledPart := by
  rw [part_cons]
  exact funext fun j => Option.or_none

/-! ### One run -/

theorem Reduces.regular (h : Reduces p s) (hp : p.Regular) : s.program.Regular where
  sound := h.depicts.sound
  admissible := h.depicts.admissible hp.admissible
  finite := h.depicts.program_finite hp.finite hp.admissible

theorem not_splitByHand {calls : List Call} (h : ∀ j, Call.split j ∉ calls) (s : Reduction f)
    (j : ℕ) : ¬ SplitByHand s calls j := by
  rintro ⟨before, after, reply, rfl, -⟩
  exact h j (List.mem_append_right _ List.mem_cons_self)

theorem run_encodes (hp : p.Regular) {calls : List Call} (h : ∀ j, Call.split j ∉ calls) :
    p.Encodes ((start p).run calls).program ((start p).run calls).filledPart := by
  refine ((reduces_start hp.sound).run calls).encodes hp.admissible fun j => ?_
  rw [isSome_splits_run hp.sound]
  exact or_iff_right (not_splitByHand h _ j)

/-! ### All runs -/

/-- What all runs together leave behind is an encoding of the program at first, and no variable has
been given a second negative part. The induction is on the runs; the program that the first run
leaves is regular again. -/
theorem restarts_encode (hp : p.Regular) {runs : List (List Call × Bool)}
    (hruns : ∀ r ∈ runs, ∀ j, Call.split j ∉ r.1) (hlast : (restarts p runs).getLast? = some s) :
    (∃ q : LinearProgram f, q.Regular ∧ Reduces q s) ∧
      p.Encodes s.program (part (restarts p runs)) ∧
      ∀ t ∈ restarts p runs, ∀ j k, t.filledPart j = some k →
        part (restarts p runs) j = some k := by
  induction runs generalizing p with
  | nil => cases hlast
  | cons r rest ih =>
    have hreduces := (reduces_start hp.sound).run r.1
    have hfirst := run_encodes hp (hruns r List.mem_cons_self)
    rw [restarts_cons] at hlast ⊢
    generalize (start p).run r.1 = s₁ at hlast hreduces hfirst ⊢
    cases hrest : restarts s₁.program rest with
    | nil =>
      rw [hrest] at hlast
      obtain rfl : s₁ = s := Option.some.inj hlast
      rw [part_singleton]
      refine ⟨⟨p, hp, hreduces⟩, hfirst, fun t ht j k hk => ?_⟩
      rwa [List.mem_singleton.mp ht] at hk
    | cons s₂ ss =>
      rw [hrest, List.getLast?_cons_cons, ← hrest] at hlast
      obtain ⟨hregular, hsecond, hparts⟩ :=
        ih (hreduces.regular hp) (fun r hr => hruns r (List.mem_cons_of_mem _ hr)) hlast
      rw [← hrest, part_cons]
      refine ⟨hregular, hfirst.trans hsecond, fun t ht j k hk => ?_⟩
      obtain rfl | ht := List.mem_cons.mp ht
      · show (t.filledPart j).or _ = some k
        rw [hk, Option.some_or]
      -- what the first run has filled has no bounds that a later run would split it for
      · have hlater := hparts t ht j k hk
        have hnone : s₁.filledPart j = none := by
          cases hj : s₁.filledPart j with
          | none => rfl
          | some l =>
            exact absurd (hsecond.split_bounded j k hlater).1 (hfirst.split_free j l hj).1
        show (s₁.filledPart j).or _ = some k
        rw [hnone, Option.none_or, hlater]

theorem readings_form {q : LinearProgram f} {parts : ℕ → Option ℕ} (hs : Reduces q s)
    (hphase : s.phase = .slacksAdded) (h : p.Encodes s.program parts) :
    s.form.readings parts p.numVariables = p.almostFeasibleSet := by
  ext q
  constructor
  · rintro ⟨y, hy, rfl⟩
    have hx := (h.almostFeasible_iff (LinearProgram.partValue parts y)).mpr
      ⟨y, (hs.almostFeasible_iff_solves hphase).mpr hy, fun _ _ => rfl⟩
    exact ⟨_, hx, by rw [form_costAt, h.costAt_eq]⟩
  · rintro ⟨x, hx, rfl⟩
    obtain ⟨y, hy, hyx⟩ := (h.almostFeasible_iff x).mp hx
    refine ⟨y, (hs.almostFeasible_iff_solves hphase).mp hy, ?_⟩
    rw [form_costAt, h.costAt_eq, LinearProgram.costAt_congr hyx, Prod.mk.injEq]
    exact ⟨funext fun j => (hyx j j.isLt).symm, rfl⟩

/-- However often the reduction of a program is broken off and started again, without splits by hand
and until one run is complete, the solutions of what is exported stand for the same numbers of the
variables at first, at the same costs, as they do when all steps are taken at once. -/
theorem restarts_readings (hp : p.Built) (hfinite : p.Finite) {runs : List (List Call × Bool)}
    (hruns : ∀ r ∈ runs, ∀ j, Call.split j ∉ r.1) (hlast : (restarts p runs).getLast? = some s)
    (hphase : s.phase = .slacksAdded) (check : Bool) :
    ∃ s₁ F₁ F, (reduce check).run (start p) = .ok s₁.slackBasis s₁ ∧ s₁.finished.1 = .ok F₁ ∧
      s.finished.1 = .ok F ∧ F₁.Finite ∧ F.Finite ∧
      (∀ t ∈ restarts p runs, ∀ j k, t.filledPart j = some k →
        part (restarts p runs) j = some k) ∧
      F.readings (part (restarts p runs)) p.numVariables =
        F₁.readings s₁.filledPart p.numVariables := by
  have hregular : p.Regular := ⟨hp.sound, hp.admissible, hfinite⟩
  obtain ⟨⟨q, hq, hs⟩, hencodes, hparts⟩ := restarts_encode hregular hruns hlast
  obtain ⟨s₁, hrun, hphase₁, hs₁, hsplits⟩ := run_reduce_start hp.sound check
  have hfilled : .negativesFilled ≤ s₁.phase := by
    rw [hphase₁]
    decide
  have hencodes₁ := hs₁.encodes_filled hfilled hp.admissible hsplits
  refine ⟨s₁, s₁.form, s.form, hrun, ?_, ?_, ?_, ?_, hparts, ?_⟩
  · rw [finished, run_finish hphase₁]
  · rw [finished, run_finish hphase]
  · exact form_finite hs₁.depicts.sound (hs₁.regular hregular).finite
  · exact form_finite hs.depicts.sound (hs.regular hq).finite
  · rw [readings_form hs hphase hencodes, readings_form hs₁ hphase₁ hencodes₁]

/-- The first run leaves a negative part that is never filled. The second one, which is finished too
early, gives the variable another one, and the last one finds nothing to split. -/
theorem restarts_readings_interrupted :
    let p : LinearProgram .binary64 := {
      matrix := (SparseMatrix.zero 1 2).edited (.set 0 0 1)
      constraints := #[⟨.equal, 1⟩]
      vars := #[⟨-1, 1, 1⟩, ⟨0, .infinity, 1⟩] }
    let runs : List (List Call × Bool) :=
      [([.splitEqualities, .enforceBounds], false),
        ([.splitEqualities, .enforceBounds, .fillNegatives], true), ([.reduce true], true)]
    part (restarts p runs) 0 = some 3 ∧ ∃ s, (restarts p runs).getLast? = some s ∧
      s.phase = .slacksAdded ∧ ∃ s₁ F₁ F, (reduce true).run (start p) = .ok s₁.slackBasis s₁ ∧
        s₁.finished.1 = .ok F₁ ∧ s.finished.1 = .ok F ∧ F₁.Finite ∧ F.Finite ∧
        (∀ t ∈ restarts p runs, ∀ j k, t.filledPart j = some k →
          part (restarts p runs) j = some k) ∧
        F.readings (part (restarts p runs)) p.numVariables =
          F₁.readings s₁.filledPart p.numVariables := by
  intro p runs
  have hm : p.matrix.Reachable := .edited (.zero 1 2) (.set 0 0 1)
  have hbuilt : LinearProgram.ofParts p.matrix #[.equal] #[1] #[(-1, 1), (0, .infinity)] #[1, 1] =
      .ok p := by decide +kernel
  have hp : p.Built := .ofParts hm hbuilt
  have hfinite : p.Finite := ⟨by decide +kernel, by decide +kernel, by decide +kernel⟩
  have hruns : ∀ r ∈ runs, ∀ j, Call.split j ∉ r.1 := by simp [runs]
  have hend : (restarts p runs).getLast?.map (·.phase) = some .slacksAdded := by decide +kernel
  obtain ⟨s, hlast, hphase⟩ := Option.map_eq_some_iff.mp hend
  exact ⟨by decide +kernel, s, hlast, hphase,
    restarts_readings hp hfinite hruns hlast hphase true⟩

end Reduction

end StandardLp
