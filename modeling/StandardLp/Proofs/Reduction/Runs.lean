import StandardLp.Proofs.Reduction.Stages

/-!
Runs of calls. At every moment of every run, whatever was called and whatever failed, the
reduction is at the stage that its phase stands for; a call out of order changes nothing.
-/

namespace StandardLp.Reduction

variable {f : Format} {p : LinearProgram f} {s : Reduction f}

/-- The invariant of all runs on `p`. -/
structure Reduces (p : LinearProgram f) (s : Reduction f) : Prop where
  depicts : Depicts p (p.stageAt s.phase) s
  split_bounded : .boundsEnforced ≤ s.phase → ∀ j ∈ p.boundedVars, (s.splits.get? j).isSome

/-- Whether `x` succeeds or not, it keeps the invariant. -/
def Keeps (p : LinearProgram f) {β : Type} (x : ReduceM f β) : Prop :=
  ∀ s, Reduces p s → match x.run s with
    | .ok _ s' => Reduces p s'
    | .error _ s' => Reduces p s'

theorem reduces_start (hp : p.Sound) : Reduces p (start p) where
  depicts := depicts_start hp
  split_bounded h := absurd h (by show ¬ Phase.boundsEnforced ≤ .start; decide)

theorem Reduces.depicts_of_phase (h : Reduces p s) {phase : Phase} (hphase : s.phase = phase) :
    Depicts p (p.stageAt phase) s :=
  hphase ▸ h.depicts

theorem Reduces.exists_depicts_early (h : Reduces p s) (hphase : ¬ .negativesFilled ≤ s.phase) :
    ∃ rows relaxed, Depicts p (.early rows relaxed) s := by
  obtain ⟨rows, relaxed, hstage⟩ := p.exists_stageAt_eq_early hphase
  exact ⟨rows, relaxed, hstage ▸ h.depicts⟩

theorem Reduces.exists_depicts_filled (h : Reduces p s) (hphase : .negativesFilled ≤ s.phase) :
    ∃ n, n ≤ p.plan.length ∧ Depicts p ⟨p.plan, p.equalities, fun _ => true, n⟩ s := by
  obtain ⟨n, hstage⟩ := p.exists_stageAt_eq_filled hphase
  have hn := p.slacks_stageAt_le s.phase
  rw [hstage] at hn
  exact ⟨n, hn, hstage ▸ h.depicts⟩

theorem Reduces.relog (h : Reduces p s) (log : Array (Record f)) :
    Reduces p { s with log := log } where
  depicts := h.depicts.relabel s.phase log
  split_bounded := h.split_bounded

/-! ### Actions that keep the invariant -/

namespace Keeps

variable {β γ : Type}

theorem of_ok {x : ReduceM f β}
    (h : ∀ s, Reduces p s → ∃ b s', x.run s = .ok b s' ∧ Reduces p s') : Keeps p x := by
  intro s hs
  obtain ⟨b, s', hrun, hs'⟩ := h s hs
  rw [hrun]
  exact hs'

theorem bind {x : ReduceM f β} {g : β → ReduceM f γ} (hx : Keeps p x) (hg : ∀ b, Keeps p (g b)) :
    Keeps p (x >>= g) := by
  intro s hs
  have hkept := hx s hs
  cases hrun : x.run s with
  | ok b s' =>
    rw [hrun] at hkept
    rw [run_bind_of_ok hrun]
    exact hg b s' hkept
  | error e s' =>
    rw [hrun] at hkept
    rw [run_bind_of_error hrun]
    exact hkept

theorem pure (b : β) : Keeps p (Pure.pure b : ReduceM f β) :=
  of_ok fun s hs => ⟨b, s, rfl, hs⟩

theorem get : Keeps p (MonadState.get : ReduceM f (Reduction f)) :=
  of_ok fun s hs => ⟨s, s, rfl, hs⟩

theorem record (r : Record f) : Keeps p (record r) :=
  of_ok fun _ hs => ⟨(), _, rfl, hs.relog _⟩

theorem throw (e : ReductionError) : Keeps p (MonadExcept.throw e : ReduceM f β) :=
  fun _ hs => hs

theorem map {x : ReduceM f β} (g : β → γ) (hx : Keeps p x) : Keeps p (g <$> x) := by
  rw [map_eq_pure_bind]
  exact bind hx fun b => pure (g b)

/-- A step keeps the invariant if it leads from one stage to the next in its own phase; in any
other phase it is refused. The variables in `l` are split on the way. -/
theorem step {operation : String} {phase next : Phase} {l : List Nat}
    {rest : PUnit → ReduceM f Unit}
    (hstep : ∀ s, Depicts p (p.stageAt phase) s → s.phase = phase →
      ∃ s', (enter operation phase >>= rest).run s = .ok () s' ∧ s'.phase = next ∧
        Depicts p (p.stageAt next) s' ∧ s'.splits = allot s.splits p.numVariables l)
    (hbounded : .boundsEnforced ≤ next → .boundsEnforced ≤ phase ∨ p.boundedVars ⊆ l) :
    Keeps p (enter operation phase >>= rest) := by
  intro s hs
  by_cases hphase : s.phase = phase
  · obtain ⟨s', hrun, hphase', hs', hsplits⟩ := hstep s (hs.depicts_of_phase hphase) hphase
    rw [hrun]
    refine ⟨hphase' ▸ hs', fun h j hj => ?_⟩
    rw [hsplits, isSome_get?_allot]
    obtain hbefore | hnow := hbounded (hphase' ▸ h)
    · exact .inl (hs.split_bounded (hphase ▸ hbefore) j hj)
    · exact .inr (hnow hj)
  · rw [run_enter_of_ne hphase]
    exact hs

theorem splitEqualities : Keeps p (splitEqualities : ReduceM f Unit) :=
  step (l := []) (fun _ => run_splitEqualities) fun h => absurd h (by decide)

theorem enforceBounds : Keeps p (enforceBounds : ReduceM f Unit) :=
  step (fun _ => run_enforceBounds) fun _ => .inr (List.Subset.refl _)

theorem fillNegatives : Keeps p (fillNegatives : ReduceM f Unit) :=
  step (l := []) (fun _ => run_fillNegatives) fun _ => .inl (by decide)

theorem addSlacks : Keeps p (addSlacks : ReduceM f Unit) :=
  step (l := []) (fun _ => run_addSlacks) fun _ => .inl (by decide)

theorem split (j : Nat) : Keeps p (split j : ReduceM f Nat) := by
  intro s hs
  by_cases hphase : .negativesFilled ≤ s.phase
  · rw [run_split_late hphase]
    exact hs
  · by_cases hj : j < s.program.numVariables
    · obtain ⟨rows, relaxed, hstage⟩ := p.exists_stageAt_eq_early hphase
      obtain ⟨k, s', hrun, hphase', hs', hsplits⟩ := run_split (hstage ▸ hs.depicts) hphase hj
      rw [hrun]
      refine ⟨by rw [hphase', hstage]; exact hs', fun h i hi => ?_⟩
      rw [hsplits]
      exact (isSome_get?_allot ..).mpr (.inl (hs.split_bounded (hphase' ▸ h) i hi))
    · rw [run_split_of_le hphase (Nat.le_of_not_lt hj)]
      exact hs

theorem validate : Keeps p (validate : ReduceM f Unit) := by
  refine bind get fun s => ?_
  cases s.program.checkBasis s.slackBasis with
  | ok => exact record _
  | error v => exact bind (record _) fun _ => throw _

theorem reduce (check : Bool) : Keeps p (reduce check : ReduceM f (Array Nat)) := by
  refine bind splitEqualities fun _ => bind enforceBounds fun _ => bind fillNegatives fun _ =>
    bind addSlacks fun _ => bind get fun s => bind (record _) fun _ => ?_
  cases check with
  | false => exact bind get fun s => pure _
  | true => exact bind validate fun _ => bind get fun s => pure _

theorem perform (c : Call) : Keeps p (perform c : ReduceM f Reply) := by
  cases c with
  | splitEqualities => exact bind splitEqualities fun _ => pure _
  | enforceBounds => exact bind enforceBounds fun _ => pure _
  | fillNegatives => exact bind fillNegatives fun _ => pure _
  | addSlacks => exact bind addSlacks fun _ => pure _
  | reduce check => exact map _ (reduce check)
  | split j => exact map _ (split j)

end Keeps

/-! ### Runs -/

namespace Reduces

theorem call (h : Reduces p s) (c : Call) : Reduces p (s.call c).2 := by
  have hkept := Keeps.perform c s h
  unfold Reduction.call
  cases hrun : (perform c).run s with
  | ok reply s' => rwa [hrun] at hkept
  | error e s' => rwa [hrun] at hkept

theorem run (h : Reduces p s) (calls : List Call) : Reduces p (s.run calls) := by
  induction calls generalizing s with
  | nil => exact h
  | cons c rest ih => exact ih (h.call c)

end Reduces

/-! ### All steps at once -/

namespace Depicts

variable {i : Nat}

theorem constraint_final (h : Depicts p (p.stageAt .slacksAdded) s) {r : RowOrigin}
    (hr : p.plan[i]? = some r) : s.program.constraints[i]? = some ⟨.equal, p.rhsOf r⟩ := by
  have hi : i < (p.stageAt .slacksAdded).slacks := (List.getElem?_eq_some_iff.mp hr).1
  rw [h.constraint i r hr, if_pos hi]

theorem constraints_final (h : Depicts p (p.stageAt .slacksAdded) s) :
    s.program.constraints = (p.plan.map fun r => Constraint.mk .equal (p.rhsOf r)).toArray := by
  apply Array.ext_getElem?
  intro i
  simp only [List.getElem?_toArray, List.getElem?_map]
  cases hr : p.plan[i]? with
  | some r => rw [h.constraint_final hr, Option.map_some]
  | none =>
    have hle : s.program.numConstraints ≤ i := by
      rw [h.numConstraints]
      exact List.getElem?_eq_none_iff.mp hr
    rw [Array.getElem?_eq_none hle, Option.map_none]

theorem checkBasic_eq (h : Depicts p (p.stageAt .slacksAdded) s) (hi : i < p.plan.length) :
    s.program.checkBasic i (p.numVariables + s.splits.size + i) = .ok () := by
  have hr : p.plan[i]? = some _ := List.getElem?_eq_getElem hi
  have hstored := h.stored_slack i _ hi hr
  have hentry := s.program.matrix.entry_eq i (p.numVariables + s.splits.size + i)
  rw [hstored, if_pos rfl, Option.getD_some] at hentry
  have hunit : (!(s.program.matrix.entry i (p.numVariables + s.splits.size + i) == 1) &&
      !(s.program.matrix.entry i (p.numVariables + s.splits.size + i) == -1)) = false := by
    rw [hentry]
    cases p.sideOf p.plan[i] with
    | lower => simp [Side.slack, Binary.neg_one_beq_self]
    | upper => simp [Side.slack, Binary.one_beq_self]
  have hcount : s.program.numVariables = p.numVariables + s.splits.size + p.plan.length :=
    h.numVariables
  have hfind : (s.program.matrix.columnAt (p.numVariables + s.splits.size + i)).entries.find?
      (·.1 != i) = none := by
    rw [List.find?_eq_none]
    rintro ⟨t, x⟩ he
    have hget := h.sound.matrix.mem_columnAt_iff.mp he
    rw [hstored] at hget
    by_cases ht : t = i
    · simp [ht]
    · rw [if_neg ht] at hget
      cases hget
  rw [LinearProgram.checkBasic, if_neg (by omega), hunit, if_neg Bool.false_ne_true, hfind]

theorem size_slackBasis_final (h : Depicts p (p.stageAt .slacksAdded) s) :
    s.slackBasis.size = s.program.numConstraints :=
  h.size_slackBasis.trans h.numConstraints.symm

theorem checkBasis_eq (h : Depicts p (p.stageAt .slacksAdded) s) :
    s.program.checkBasis s.slackBasis = .ok () := by
  have hequal : s.program.constraints.toList.zipIdx.find? (·.1.sense != .equal) = none := by
    rw [List.find?_eq_none]
    rintro ⟨c, i⟩ hc
    have hget : s.program.constraints[i]? = some c := by
      simpa using List.mk_mem_zipIdx_iff_getElem?.mp hc
    have hi : i < p.plan.length := by
      have hlt : i < s.program.numConstraints := (Array.getElem?_eq_some_iff.mp hget).1
      rwa [h.numConstraints] at hlt
    rw [h.constraint_final (List.getElem?_eq_getElem hi), Option.some.injEq] at hget
    simp [← hget]
  rw [LinearProgram.checkBasis, hequal]
  dsimp only
  rw [if_neg (not_not_intro h.size_slackBasis_final)]
  rw [forM_eq_ok_iff]
  rintro ⟨k, i⟩ hk
  have hget : s.slackBasis[i]? = some k := by
    simpa using List.mk_mem_zipIdx_iff_getElem?.mp hk
  obtain ⟨hi, rfl⟩ := h.getElem?_slackBasis.mp hget
  exact h.checkBasic_eq hi

end Depicts

theorem run_validate (h : Depicts p (p.stageAt .slacksAdded) s) :
    validate.run s = .ok () { s with log := s.log.push .valid } := by
  rw [validate, run_bind_of_ok (EStateM.run_get s), h.checkBasis_eq]
  rfl

theorem run_steps (h : Depicts p (p.stageAt .start) s) (hphase : s.phase = .start) :
    ∃ s₁ s₂ s₃ s₄, splitEqualities.run s = .ok () s₁ ∧ enforceBounds.run s₁ = .ok () s₂ ∧
      fillNegatives.run s₂ = .ok () s₃ ∧ addSlacks.run s₃ = .ok () s₄ ∧
      s₄.phase = .slacksAdded ∧ Depicts p (p.stageAt .slacksAdded) s₄ ∧
      s₄.splits = allot s.splits p.numVariables p.boundedVars := by
  obtain ⟨s₁, hrun₁, hphase₁, h₁, hsplits₁⟩ := run_splitEqualities h hphase
  obtain ⟨s₂, hrun₂, hphase₂, h₂, hsplits₂⟩ := run_enforceBounds h₁ hphase₁
  obtain ⟨s₃, hrun₃, hphase₃, h₃, hsplits₃⟩ := run_fillNegatives h₂ hphase₂
  obtain ⟨s₄, hrun₄, hphase₄, h₄, hsplits₄⟩ := run_addSlacks h₃ hphase₃
  refine ⟨s₁, s₂, s₃, s₄, hrun₁, hrun₂, hrun₃, hrun₄, hphase₄, h₄, ?_⟩
  rw [hsplits₄, hsplits₃, hsplits₂, hsplits₁]

/-- After the four steps there is a check at most, and it passes. -/
theorem account_report (hs : Depicts p (p.stageAt .slacksAdded) s) (check : Bool) :
    ∃ log, Account (do
      record (.reduced (← MonadState.get).census)
      if check then validate
      return (← MonadState.get).slackBasis : ReduceM f (Array Nat)) s
        (.reduced s.census :: if check then [.valid] else []) s.slackBasis { s with log := log } := by
  let told : Reduction f := { s with log := s.log.push (.reduced s.census) }
  have hreport : Account (record (.reduced s.census)) s [.reduced s.census] () told :=
    .told (.record _) rfl (.reduced rfl) rfl
  have hread : ∀ t : Reduction f,
      Account (do return (← MonadState.get).slackBasis : ReduceM f (Array Nat)) t [] t.slackBasis t :=
    fun t => (Account.get t).bind (.pure _ t)
  cases check with
  | false =>
    exact ⟨_, Account.bind (g := fun t => record (.reduced t.census) >>= fun _ => _) (.get s)
      (hreport.bind (hread told))⟩
  | true =>
    have hvalid : Account validate told [.valid] () { told with log := told.log.push .valid } :=
      .told .validate (run_validate (hs.relabel s.phase _)) (.valid rfl hs.checkBasis_eq) rfl
    exact ⟨_, Account.bind (g := fun t => record (.reduced t.census) >>= fun _ => _) (.get s)
      (hreport.bind (hvalid.bind (hread _)))⟩

theorem run_reduce_of_steps {s₁ s₂ s₃ s₄ : Reduction f} (h₁ : splitEqualities.run s = .ok () s₁)
    (h₂ : enforceBounds.run s₁ = .ok () s₂) (h₃ : fillNegatives.run s₂ = .ok () s₃)
    (h₄ : addSlacks.run s₃ = .ok () s₄) (hs : Depicts p (p.stageAt .slacksAdded) s₄)
    (check : Bool) :
    ∃ log, (reduce check).run s = .ok s₄.slackBasis { s₄ with log := log } := by
  obtain ⟨log, haccount⟩ := account_report hs check
  refine ⟨log, ?_⟩
  rw [reduce, run_bind_of_ok h₁, run_bind_of_ok h₂, run_bind_of_ok h₃, run_bind_of_ok h₄]
  exact haccount.run

theorem run_reduce (h : Depicts p (p.stageAt .start) s) (hphase : s.phase = .start)
    (check : Bool) : ∃ s', (reduce check).run s = .ok s'.slackBasis s' ∧ s'.phase = .slacksAdded ∧
      Depicts p (p.stageAt .slacksAdded) s' ∧
      s'.splits = allot s.splits p.numVariables p.boundedVars := by
  obtain ⟨s₁, s₂, s₃, s₄, hrun₁, hrun₂, hrun₃, hrun₄, hphase₄, h₄, hsplits⟩ := run_steps h hphase
  obtain ⟨log, hrun⟩ := run_reduce_of_steps hrun₁ hrun₂ hrun₃ hrun₄ h₄ check
  exact ⟨{ s₄ with log := log }, hrun, hphase₄, h₄.relabel s₄.phase log, hsplits⟩

theorem run_reduce_start (hp : p.Sound) (check : Bool) :
    ∃ s, (reduce check).run (start p) = .ok s.slackBasis s ∧ s.phase = .slacksAdded ∧
      Reduces p s ∧ ∀ j, (s.splits.get? j).isSome ↔ j ∈ p.boundedVars := by
  obtain ⟨s, hrun, hphase, -, hsplits⟩ := run_reduce (depicts_start hp) rfl check
  have hkept := Keeps.reduce (p := p) check (start p) (reduces_start hp)
  rw [hrun] at hkept
  refine ⟨s, hrun, hphase, hkept, fun j => ?_⟩
  rw [hsplits]
  exact isSome_get?_allot_empty ..

theorem run_finish (hphase : s.phase = .slacksAdded) :
    finish.run s = .ok s.form { s with
      log := s.log.push (.starting "finish" s.program.numConstraints s.program.numVariables) } := by
  rw [finish, run_bind_of_ok ((run_enter ..).trans (if_pos hphase))]
  rfl

end StandardLp.Reduction
