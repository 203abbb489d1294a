import StandardLp.Proofs.Reduction.Actions

/-!
A reduction works on its program through edits. Whatever is called and whatever fails, the program
that is left is the one at first after a sequence of edits, so that nothing holds of it but what
holds of edited programs.
-/

namespace StandardLp.Reduction

open LinearProgram (Edit)

variable {f : Format} {β γ : Type} {p q : LinearProgram f}

/-- Whether `x` succeeds or fails, it changes the program by edits. -/
def ByEdits (x : ReduceM f β) : Prop :=
  ∀ s, ∃ edits, match x.run s with
    | .ok _ t => t.program = s.program.run edits
    | .error _ t => t.program = s.program.run edits

namespace ByEdits

theorem bind {x : ReduceM f β} {g : β → ReduceM f γ} (hx : ByEdits x) (hg : ∀ b, ByEdits (g b)) :
    ByEdits (x >>= g) := by
  intro s
  obtain ⟨edits, hedits⟩ := hx s
  cases hrun : x.run s with
  | error e t =>
    rw [hrun] at hedits
    rw [run_bind_of_error hrun]
    exact ⟨edits, hedits⟩
  | ok b t =>
    rw [hrun] at hedits
    rw [run_bind_of_ok hrun]
    obtain ⟨more, hmore⟩ := hg b t
    refine ⟨edits ++ more, ?_⟩
    rw [LinearProgram.run, List.foldl_append]
    rw [hedits] at hmore
    exact hmore

theorem pure (b : β) : ByEdits (Pure.pure b : ReduceM f β) := fun _ => ⟨[], rfl⟩

theorem get : ByEdits (MonadState.get : ReduceM f (Reduction f)) := fun _ => ⟨[], rfl⟩

theorem throw (e : ReductionError) : ByEdits (MonadExcept.throw e : ReduceM f β) :=
  fun _ => ⟨[], rfl⟩

theorem map {x : ReduceM f β} (φ : β → γ) (hx : ByEdits x) : ByEdits (φ <$> x) := by
  rw [map_eq_pure_bind]
  exact hx.bind fun b => pure _

theorem modify {g : Reduction f → Reduction f} (hg : ∀ s, (g s).program = s.program) :
    ByEdits (modify g : ReduceM f PUnit) :=
  fun s => ⟨[], hg s⟩

theorem forM {ι : Type} {act : ι → ReduceM f Unit} (hact : ∀ x, ByEdits (act x)) (l : List ι) :
    ByEdits (l.forM act) := by
  induction l with
  | nil => exact pure ()
  | cons x rest ih => exact (hact x).bind fun _ => ih

theorem record (r : Record f) : ByEdits (record r) := modify fun _ => rfl

theorem consult (read : LinearProgram f → Except IndexError β) : ByEdits (consult read) := by
  intro s
  refine ⟨[], ?_⟩
  rw [run_consult]
  cases read s.program <;> rfl

/-- A change of the program is an edit if it does what the edit does, whenever it is not refused. -/
theorem revise {change : LinearProgram f → Except IndexError (β × LinearProgram f)} (e : Edit f)
    (hchange : ∀ p b q, change p = .ok (b, q) → p.edited e = q) : ByEdits (revise change) := by
  intro s
  rw [run_revise]
  cases hc : change s.program with
  | error refusal => exact ⟨[], rfl⟩
  | ok r => exact ⟨[e], (hchange _ _ _ hc).symm⟩

theorem edit {change : LinearProgram f → Except IndexError (LinearProgram f)} (e : Edit f)
    (hchange : ∀ p, p.apply e = (none, ·) <$> change p) : ByEdits (edit change) := by
  refine revise e fun p b q hq => ?_
  cases hc : change p with
  | error refusal =>
    rw [hc] at hq
    cases hq
  | ok r =>
    rw [hc] at hq
    cases hq
    rw [LinearProgram.edited, hchange, hc]
    rfl

theorem enter (operation : String) (phase : Phase) :
    ByEdits (enter operation phase : ReduceM f Unit) := by
  intro s
  refine ⟨[], ?_⟩
  rw [run_enter]
  by_cases hphase : s.phase = phase
  · rw [if_pos hphase]
    rfl
  · rw [if_neg hphase]
    rfl

theorem advance : ByEdits (advance : ReduceM f Unit) := modify fun _ => rfl

/-! ### Steps -/

theorem addVariable : ByEdits (append (·.addVariable) : ReduceM f Nat) :=
  revise .addVariable fun _ _ _ h => by
    cases h
    rfl

theorem setSense (i : Nat) (x : Sense) : ByEdits (Reduction.edit (f := f) (·.setSense i x)) :=
  edit (.setSense i x) fun _ => rfl

theorem setCoefficient (i j : Nat) (b : Binary f) :
    ByEdits (Reduction.edit (·.setCoefficient i j b)) :=
  edit (.setCoefficient i j b) fun _ => rfl

theorem splitEquality (i : Nat) : ByEdits (splitEquality i : ReduceM f Unit) := by
  refine bind (revise (.copyConstraint i) fun p k q h => ?_) fun k => bind (setSense i .less)
    fun _ => bind (setSense k .greater) fun _ => bind (modify fun _ => rfl) fun _ => record _
  rw [LinearProgram.edited, LinearProgram.apply, h]
  rfl

theorem split (j : Nat) : ByEdits (split j : ReduceM f Nat) := by
  refine bind get fun s => ?_
  split
  · exact throw _
  · refine bind (consult _) fun _ => ?_
    split
    · exact pure _
    · exact bind addVariable fun _ => bind (modify fun _ => rfl) fun _ =>
        bind (modify fun _ => rfl) fun _ => bind (record _) fun _ => pure _

theorem addBoundRow (side : Side) (b : Binary f) (j : Nat) :
    ByEdits (addBoundRow side b j) := by
  refine bind (revise (.addConstraint side.sense b) fun _ _ _ h => ?_) fun i =>
    bind (setCoefficient i j 1) fun _ => bind (modify fun _ => rfl) fun _ => record _
  cases h
  rfl

theorem enforceBoundsOf (j : Nat) : ByEdits (enforceBoundsOf j : ReduceM f Unit) := by
  refine bind (consult _) fun v => bind ?_ fun _ => ?_
  · rw [enforceLower]
    split
    · exact pure _
    · refine bind (split j) fun _ => ?_
      split
      · exact pure _
      · exact addBoundRow _ _ _
  · rw [enforceUpper]
    split
    · exact pure _
    · exact bind (split j) fun _ => addBoundRow _ _ _

theorem setLower (j : Nat) (b : Binary f) : ByEdits (Reduction.edit (·.setLower j b)) :=
  edit (.setLower j b) fun _ => rfl

theorem setUpper (j : Nat) (b : Binary f) : ByEdits (Reduction.edit (·.setUpper j b)) :=
  edit (.setUpper j b) fun _ => rfl

theorem setCost (j : Nat) (b : Binary f) : ByEdits (Reduction.edit (·.setCost j b)) :=
  edit (.setCost j b) fun _ => rfl

theorem fillNegative (j k : Nat) : ByEdits (fillNegative j k : ReduceM f Unit) := by
  have hrow (e : Nat × Binary f) : ByEdits (Reduction.edit (·.setCoefficient e.1 k (-e.2))) :=
    setCoefficient e.1 k (-e.2)
  unfold Reduction.fillNegative
  refine bind (setLower j 0) fun _ => bind (setUpper j .infinity) fun _ => ?_
  refine bind (consult _) fun column => bind (forM hrow column.entries) fun _ => ?_
  exact bind (consult _) fun v => setCost k (-v.cost)

theorem addSlack (i : Nat) : ByEdits (addSlack i : ReduceM f Unit) := by
  refine bind (consult _) fun c => ?_
  split
  · exact throw _
  · exact bind addVariable fun k => bind (modify fun _ => rfl) fun _ =>
      bind (setCoefficient i k _) fun _ => bind (setSense i .equal) fun _ => modify fun _ => rfl

theorem step {ι : Type} {operation : String} {phase : Phase} {visit : Reduction f → List ι}
    {act : ι → ReduceM f Unit} (hact : ∀ x, ByEdits (act x)) :
    ByEdits (do
      Reduction.enter operation phase
      (visit (← MonadState.get)).forM act
      Reduction.advance) :=
  bind (enter _ _) fun _ => bind get fun _ => bind (forM hact _) fun _ => advance

theorem splitEqualities : ByEdits (splitEqualities : ReduceM f Unit) := step splitEquality

theorem enforceBounds : ByEdits (enforceBounds : ReduceM f Unit) := step enforceBoundsOf

theorem fillNegatives : ByEdits (fillNegatives : ReduceM f Unit) :=
  step fun e => fillNegative e.1 e.2

theorem addSlacks : ByEdits (addSlacks : ReduceM f Unit) := step addSlack

theorem validate : ByEdits (validate : ReduceM f Unit) := by
  refine bind get fun s => ?_
  split
  · exact record _
  · exact bind (record _) fun _ => throw _

theorem reduce (check : Bool) : ByEdits (reduce check : ReduceM f (Array Nat)) := by
  refine bind splitEqualities fun _ => bind enforceBounds fun _ => bind fillNegatives fun _ =>
    bind addSlacks fun _ => bind get fun _ => bind (record _) fun _ => ?_
  cases check with
  | false => exact bind get fun _ => pure _
  | true => exact bind validate fun _ => bind get fun _ => pure _

theorem perform (c : Call) : ByEdits (perform c : ReduceM f Reply) := by
  cases c with
  | splitEqualities => exact bind splitEqualities fun _ => pure _
  | enforceBounds => exact bind enforceBounds fun _ => pure _
  | fillNegatives => exact bind fillNegatives fun _ => pure _
  | addSlacks => exact bind addSlacks fun _ => pure _
  | reduce check => exact map _ (reduce check)
  | split j => exact map _ (split j)

end ByEdits

/-- What any calls make of the program can be made of it by edits. -/
theorem exists_edits_run (s : Reduction f) (calls : List Call) :
    ∃ edits, (s.run calls).program = s.program.run edits := by
  induction calls generalizing s with
  | nil => exact ⟨[], rfl⟩
  | cons c rest ih =>
    have hcall : ∃ edits, (s.call c).2.program = s.program.run edits := by
      obtain ⟨edits, hedits⟩ := ByEdits.perform c s
      refine ⟨edits, ?_⟩
      unfold Reduction.call
      cases hrun : (Reduction.perform c).run s with
      | ok reply t => rwa [hrun] at hedits
      | error e t => rwa [hrun] at hedits
    obtain ⟨edits, hedits⟩ := hcall
    obtain ⟨more, hmore⟩ := ih (s.call c).2
    refine ⟨edits ++ more, ?_⟩
    rw [LinearProgram.run, List.foldl_append]
    rw [hedits] at hmore
    exact hmore

end StandardLp.Reduction
