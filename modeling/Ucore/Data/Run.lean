namespace Ucore.Data

/-! Runs of a labelled transition system.

The trace of a run records every step by the state it was taken in and its
label, so a condition on the steps of a run is a condition on its trace, and
every state reached is either in the trace or the last one.  `performAll`
computes one run, by a function that performs a label or fails.
-/

variable {σ : Type u} {ε : Type v} {ω : Type w}

inductive Run (step : σ → ε → σ → Prop) : σ → List (σ × ε) → σ → Prop where
  | done (state : σ) : Run step state [] state
  | step {state middle last : σ} {label : ε} {trace : List (σ × ε)}
      (first : step state label middle) (rest : Run step middle trace last) :
      Run step state ((state, label) :: trace) last

namespace Run

variable {step : σ → ε → σ → Prop} {allowed : σ → ε → Prop}
  {first middle last : σ} {trace later : List (σ × ε)}

theorem first_visited {visited : σ → Prop} (run : Run step first trace last)
    (everywhere : (∀ taken ∈ trace, visited taken.1) ∧ visited last) : visited first := by
  cases run with
  | done => exact everywhere.2
  | step taken rest => exact everywhere.1 _ (List.mem_cons_self ..)

theorem append (run : Run step first trace middle) (rest : Run step middle later last) :
    Run step first (trace ++ later) last := by
  induction run with
  | done => exact rest
  | step taken _ ih => exact .step taken (ih rest)

/-- What every allowed step preserves holds wherever a run of allowed steps passes. -/
theorem invariant (Inv : σ → Prop) (run : Run step first trace last)
    (preserved : ∀ {state label next}, Inv state → allowed state label →
      step state label next → Inv next)
    (initial : Inv first) (steps : ∀ taken ∈ trace, allowed taken.1 taken.2) :
    (∀ taken ∈ trace, Inv taken.1) ∧ Inv last := by
  induction run with
  | done => exact ⟨by simp, initial⟩
  | @step state middle last label trace taken rest ih =>
      have next := preserved initial (steps (state, label) (by simp)) taken
      obtain ⟨passed, final⟩ := ih next (fun later member => steps later (by simp [member]))
      refine ⟨?_, final⟩
      intro visited member
      rcases List.mem_cons.mp member with rfl | member
      · exact initial
      · exact passed visited member

/-- When moreover every other step leads to a bad state, the good runs are exactly those
that take allowed steps only. -/
theorem good_iff (Inv Good : σ → Prop) (run : Run step first trace last)
    (preserved : ∀ {state label next}, Inv state → allowed state label →
      step state label next → Inv next)
    (good : ∀ {state}, Inv state → Good state)
    (spoiled : ∀ {state label next}, Inv state → ¬ allowed state label →
      step state label next → ¬ Good next)
    (initial : Inv first) :
    ((∀ taken ∈ trace, Good taken.1) ∧ Good last) ↔
      ∀ taken ∈ trace, allowed taken.1 taken.2 := by
  constructor
  · intro visited
    induction run with
    | done => simp
    | @step state middle last label trace taken rest ih =>
        have nextGood : Good middle := by
          cases rest with
          | done => exact visited.2
          | @step _ _ _ following => exact visited.1 (middle, following) (by simp)
        have permitted : allowed state label :=
          Classical.byContradiction fun forbidden => spoiled initial forbidden taken nextGood
        have others := ih (preserved initial permitted taken)
          ⟨fun later member => visited.1 later (by simp [member]), visited.2⟩
        intro visit member
        rcases List.mem_cons.mp member with rfl | member
        · exact permitted
        · exact others visit member
  · intro steps
    obtain ⟨passed, final⟩ := run.invariant Inv preserved initial steps
    exact ⟨fun visit member => good (passed visit member), good final⟩

/-- When every other step leads to a bad state and no step leads out of one, the last state tells
whether the run took allowed steps only. -/
theorem last_iff (Inv Bad : σ → Prop) (run : Run step first trace last)
    (preserved : ∀ {state label next}, Inv state → allowed state label →
      step state label next → Inv next)
    (spoiled : ∀ {state label next}, Inv state → ¬ allowed state label →
      step state label next → Bad next)
    (stays : ∀ {state label next}, Bad state → True → step state label next → Bad next)
    (excluded : ∀ {state}, Inv state → ¬ Bad state) (initial : Inv first) :
    ¬ Bad last ↔ ∀ taken ∈ trace, allowed taken.1 taken.2 := by
  constructor
  · intro notBad
    induction run with
    | done => simp
    | @step state middle last label trace taken rest ih =>
        have permitted : allowed state label := by
          apply Classical.byContradiction
          intro forbidden
          have bad := spoiled initial forbidden taken
          exact notBad (rest.invariant Bad stays bad fun _ _ => trivial).2
        intro visit member
        rcases List.mem_cons.mp member with isFirst | later
        · rw [isFirst]
          exact permitted
        · exact ih (preserved initial permitted taken) notBad visit later
  · intro steps
    exact excluded (run.invariant Inv preserved initial steps).2

end Run

/-- The labels in order, as long as each passes the check. -/
def performAll (failed : ω) (check : σ → ε → Bool) (perform : σ → ε → Except ω σ) :
    σ → List ε → Except ω σ
  | state, [] => .ok state
  | state, label :: labels =>
      if check state label then do
        let next ← perform state label
        performAll failed check perform next labels
      else
        .error failed

theorem Run.of_performAll {step : σ → ε → σ → Prop} {failed : ω} {check : σ → ε → Bool}
    {perform : σ → ε → Except ω σ} {first last : σ} {labels : List ε}
    (sound : ∀ {state label next}, perform state label = .ok next → step state label next)
    (performed : performAll failed check perform first labels = .ok last) :
    ∃ trace, Run step first trace last ∧ trace.map Prod.snd = labels ∧
      ∀ taken ∈ trace, check taken.1 taken.2 = true := by
  induction labels generalizing first with
  | nil =>
      cases performed
      exact ⟨[], .done last, rfl, by simp⟩
  | cons label labels ih =>
      by_cases passed : check first label = true
      · cases result : perform first label with
        | error stop => simp [performAll, passed, result, Bind.bind, Except.bind] at performed
        | ok next =>
            simp only [performAll, if_pos passed, result, Bind.bind, Except.bind] at performed
            obtain ⟨trace, run, same, checked⟩ := ih performed
            refine ⟨(first, label) :: trace, .step (sound result) run, by simp [same],
              fun taken member => ?_⟩
            rcases List.mem_cons.mp member with rfl | member
            · exact passed
            · exact checked taken member
      · simp [performAll, passed] at performed

end Ucore.Data
