import StandardLp.Proofs.Reduction.Reachable

/-!
The protocol of a reduction. A call in order and in range always succeeds, although each of its
steps consults and edits the program at many rows and columns and could fail at any of them. All
other calls are refused before they have begun, with nothing changed, and there are two reasons
only: the phase, and the index of a split.
-/

namespace StandardLp.Reduction

/-! ### What is asked of a call -/

namespace Call

def operation : Call → String
  | .splitEqualities | .reduce _ => "replace equality constraints"
  | .enforceBounds => "handle bounds"
  | .fillNegatives => "replace variables"
  | .addSlacks => "handle sense"
  | .split _ => "split a variable"

/-- The phase that is named as the expected one when the call is out of order. -/
def expected : Call → Phase
  | .splitEqualities | .reduce _ => .start
  | .enforceBounds => .equalitiesSplit
  | .fillNegatives => .boundsEnforced
  | .addSlacks => .negativesFilled
  | .split _ => .boundsEnforced

/-- Every step follows on one phase only. Variables can be split until the negative parts are
filled. -/
def InOrder (phase : Phase) : Call → Prop
  | .split _ => ¬ .negativesFilled ≤ phase
  | c => phase = c.expected

def InRange (numVariables : Nat) : Call → Prop
  | .split j => j < numVariables
  | _ => True

def numSteps : Call → Nat
  | .splitEqualities | .enforceBounds | .fillNegatives | .addSlacks => 1
  | .reduce _ => 4
  | .split _ => 0

def splitVars {f : Format} (p : LinearProgram f) : Call → List Nat
  | .enforceBounds | .reduce _ => p.boundedVars
  | .split j => [j]
  | _ => []

/-- No step is made from the last phase, so a step that completes has a phase to go to. -/
theorem exists_next? {c : Call} {phase : Phase} (hsteps : c.numSteps = 1)
    (horder : c.InOrder phase) : ∃ next, phase.next? = some next := by
  cases c with
  | reduce check => cases hsteps
  | split j => cases hsteps
  | _ =>
    subst horder
    exact ⟨_, rfl⟩

end Call

variable {f : Format} {p : LinearProgram f} {s : Reduction f} {c : Call}

/-- What comes of a call in the present state, whichever it is. -/
structure FollowsProtocol (s : Reduction f) : Prop where
  admitted : ∀ c : Call, c.InOrder s.phase → c.InRange s.program.numVariables →
    ∃ reply s', s.call c = (.ok reply, s') ∧ s'.phase.rank = s.phase.rank + c.numSteps
  out_of_order : ∀ c : Call, ¬ c.InOrder s.phase →
    s.call c = (.error (.phaseOrder c.operation c.expected s.phase), s)
  out_of_range : ∀ j, (Call.split j).InOrder s.phase → s.program.numVariables ≤ j →
    s.call (.split j) = (.error (.index ⟨.column, j, s.program.numVariables⟩), s)
  finished : s.phase = .slacksAdded → s.finished.1 = .ok s.form
  unfinished : s.phase ≠ .slacksAdded →
    s.finished = (.error (.phaseOrder "finish" .slacksAdded s.phase), s)

/-! ### Calls that are refused -/

theorem call_of_error {e : ReductionError} {s' : Reduction f}
    (h : (perform c).run s = .error e s') : s.call c = (.error e, s') := by
  rw [call, h]

theorem run_perform_out_of_order (h : ¬ c.InOrder s.phase) :
    (perform c).run s = .error (.phaseOrder c.operation c.expected s.phase) s := by
  cases c with
  | splitEqualities => exact run_bind_of_error (run_enter_of_ne h)
  | enforceBounds => exact run_bind_of_error (run_enter_of_ne h)
  | fillNegatives => exact run_bind_of_error (run_enter_of_ne h)
  | addSlacks => exact run_bind_of_error (run_enter_of_ne h)
  | reduce check =>
    rw [perform, map_eq_pure_bind]
    exact run_bind_of_error (run_bind_of_error (run_enter_of_ne h))
  | split j =>
    rw [perform, map_eq_pure_bind]
    exact run_bind_of_error (run_split_late (Decidable.not_not.mp h))

theorem run_perform_split_out_of_range {j : Nat} (h : (Call.split j).InOrder s.phase)
    (hj : s.program.numVariables ≤ j) :
    (perform (.split j)).run s = .error (.index ⟨.column, j, s.program.numVariables⟩) s := by
  rw [perform, map_eq_pure_bind]
  exact run_bind_of_error (run_split_of_le h hj)

/-! ### Calls that succeed -/

theorem call_of_ok {reply : Reply} {s' : Reduction f} (h : (perform c).run s = .ok reply s') :
    s.call c = (.ok reply, s') := by
  rw [call, h]

/-- At the stage that its phase stands for, a reduction carries out every call that is asked for
in order and in range. -/
theorem Reduces.run_perform (h : Reduces p s) (horder : c.InOrder s.phase)
    (hrange : c.InRange s.program.numVariables) :
    ∃ reply s', (perform c).run s = .ok reply s' ∧
      s'.phase.rank = s.phase.rank + c.numSteps ∧
      s'.splits = allot s.splits p.numVariables (c.splitVars p) := by
  cases c with
  | splitEqualities =>
    obtain ⟨s', hrun, hphase, -, hsplits⟩ :=
      run_splitEqualities (h.depicts_of_phase horder) horder
    exact ⟨_, s', run_bind_of_ok hrun, by rw [hphase, horder]; rfl, hsplits⟩
  | enforceBounds =>
    obtain ⟨s', hrun, hphase, -, hsplits⟩ := run_enforceBounds (h.depicts_of_phase horder) horder
    exact ⟨_, s', run_bind_of_ok hrun, by rw [hphase, horder]; rfl, hsplits⟩
  | fillNegatives =>
    obtain ⟨s', hrun, hphase, -, hsplits⟩ := run_fillNegatives (h.depicts_of_phase horder) horder
    exact ⟨_, s', run_bind_of_ok hrun, by rw [hphase, horder]; rfl, hsplits⟩
  | addSlacks =>
    obtain ⟨s', hrun, hphase, -, hsplits⟩ := run_addSlacks (h.depicts_of_phase horder) horder
    exact ⟨_, s', run_bind_of_ok hrun, by rw [hphase, horder]; rfl, hsplits⟩
  | reduce check =>
    obtain ⟨s', hrun, hphase, -, hsplits⟩ := run_reduce (h.depicts_of_phase horder) horder check
    refine ⟨.basis s'.slackBasis, s', ?_, by rw [hphase, horder]; rfl, hsplits⟩
    rw [perform, map_eq_pure_bind, run_bind_of_ok hrun]
    rfl
  | split j =>
    obtain ⟨rows, relaxed, hstage⟩ := p.exists_stageAt_eq_early horder
    obtain ⟨k, s', hrun, hphase, -, hsplits⟩ := run_split (hstage ▸ h.depicts) horder hrange
    refine ⟨.column k, s', ?_, by rw [hphase]; rfl, hsplits⟩
    rw [perform, map_eq_pure_bind, run_bind_of_ok hrun]
    rfl

theorem Reduces.call_cases (h : Reduces p s) (c : Call) :
    (c.InOrder s.phase ∧ ∃ reply s', s.call c = (.ok reply, s') ∧
      s'.phase.rank = s.phase.rank + c.numSteps ∧
      s'.splits = allot s.splits p.numVariables (c.splitVars p)) ∨
    ∃ e, s.call c = (.error e, s) := by
  by_cases horder : c.InOrder s.phase
  · by_cases hrange : c.InRange s.program.numVariables
    · obtain ⟨reply, s', hrun, hkept⟩ := h.run_perform horder hrange
      exact .inl ⟨horder, reply, s', call_of_ok hrun, hkept⟩
    · cases c with
      | split j =>
        exact .inr ⟨_, call_of_error
          (run_perform_split_out_of_range horder (Nat.le_of_not_lt hrange))⟩
      | _ => exact absurd trivial hrange
  · exact .inr ⟨_, call_of_error (run_perform_out_of_order horder)⟩

theorem Reduces.followsProtocol (h : Reduces p s) : s.FollowsProtocol where
  admitted := by
    intro c horder hrange
    obtain ⟨reply, s', hrun, hrank, -⟩ := h.run_perform horder hrange
    exact ⟨reply, s', call_of_ok hrun, hrank⟩
  out_of_order := fun c hc => call_of_error (run_perform_out_of_order hc)
  out_of_range := fun j horder hj => call_of_error (run_perform_split_out_of_range horder hj)
  finished := by
    intro hphase
    rw [finished, run_finish hphase]
  unfinished := by
    intro hphase
    rw [finished, finish, run_enter_of_ne hphase]

/-- After any calls whatever, each further call succeeds exactly if it is in order and in range,
and a call that fails leaves the reduction as it was. -/
theorem run_followsProtocol (hp : p.Reachable) (calls : List Call) :
    ((start p).run calls).FollowsProtocol :=
  ((reduces_start hp.sound).run calls).followsProtocol

/-- Two calls are refused before the first step, a split once the negative parts are filled. -/
theorem run_followsProtocol_refused :
    let p : LinearProgram .binary64 := (LinearProgram.zero 1 2).edited (.setUpper 1 1)
    let s := (start p).run [.addSlacks, .split 2, .splitEqualities, .split 0, .enforceBounds,
      .fillNegatives, .split 1]
    s.phase = .negativesFilled ∧ s.splits.entries = [(0, 2), (1, 3)] ∧ s.FollowsProtocol := by
  intro p s
  have hp : p.Reachable := .edited (.zero 1 2) _
  exact ⟨by decide +kernel, by decide +kernel, run_followsProtocol hp _⟩

end StandardLp.Reduction
