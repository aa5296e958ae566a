namespace Ucore.Data

/-! Executions with a bound on their loops.

A `while` loop is run for at most `fuel` rounds, so every program is a total
function of its fuel.  `Returns` forgets the bound again: it says what the
program computes once it is given enough rounds, and a program that returns
nothing for any amount of fuel is one that never stops.
-/

/-- Why an execution ended without a result. -/
inductive Stop where
  | panic (message : String)
  | outOfFuel
deriving DecidableEq, Repr

abbrev Bounded (α : Type) := Nat → Except Stop α

/-- From some amount of fuel on, the execution yields exactly this result. -/
def Returns (run : Bounded α) (result : α) : Prop :=
  ∃ enough, ∀ fuel, enough ≤ fuel → run fuel = .ok result

def Diverges (run : Bounded α) : Prop :=
  ∀ fuel, run fuel = .error .outOfFuel

/-- From some amount of fuel on, the execution ends in this way. -/
def Ends (run : Bounded α) (result : Except Stop α) : Prop :=
  ∃ enough, ∀ fuel, enough ≤ fuel → run fuel = result

/-- A result, once there is one, does not depend on the amount of fuel. -/
def Steady (run : Bounded α) : Prop :=
  ∀ fuel result, run fuel = .ok result → run (fuel + 1) = .ok result

namespace Steady

variable {run : Bounded α}

theorem returns (steady : Steady run) (result : run fuel = .ok a) : Returns run a := by
  refine ⟨fuel, fun more enough => ?_⟩
  induction enough with
  | refl => exact result
  | step _ ih => exact steady _ _ ih

/-- A result that was computed is the result. -/
theorem computed (steady : Steady run) {check : α → Bool}
    (reached : (run fuel).toOption.any check = true) : ∃ a, Returns run a ∧ check a = true := by
  cases done : run fuel with
  | error stop => simp [done, Except.toOption] at reached
  | ok a => exact ⟨a, steady.returns done, by simpa [done, Except.toOption] using reached⟩

theorem constant (result : Except Stop α) : Steady (fun _ => result) :=
  fun _ _ done => done

theorem bind {rest : α → Bounded β} (first : Steady run) (second : ∀ value, Steady (rest value)) :
    Steady (fun fuel => run fuel >>= fun value => rest value fuel) := by
  intro fuel result done
  cases value : run fuel with
  | error stop => simp [value, Except.bind, Bind.bind] at done
  | ok value' =>
      simp only [value, first _ _ value, Bind.bind, Except.bind] at done ⊢
      exact second value' _ _ done

end Steady

@[simp] theorem ok_bind (value : α) (rest : α → Except Stop β) :
    (.ok value >>= rest) = rest value := rfl

@[simp] theorem error_bind (stop : Stop) (rest : α → Except Stop β) :
    (.error stop >>= rest) = .error stop := rfl

theorem bind_eq_ok {first : Except Stop α} {rest : α → Except Stop β} {result : β} :
    first >>= rest = .ok result ↔ ∃ value, first = .ok value ∧ rest value = .ok result := by
  cases first with
  | error stop => simp [Bind.bind, Except.bind]
  | ok value => simp [Bind.bind, Except.bind]

namespace Returns

variable {run : Bounded α}

theorem unique (first : Returns run a) (second : Returns run b) : a = b := by
  obtain ⟨enoughFirst, first⟩ := first
  obtain ⟨enoughSecond, second⟩ := second
  have left := first (max enoughFirst enoughSecond) (Nat.le_max_left _ _)
  have right := second (max enoughFirst enoughSecond) (Nat.le_max_right _ _)
  exact Except.ok.inj (left.symm.trans right)

theorem some_fuel (returns : Returns run a) : ∃ fuel, run fuel = .ok a := by
  obtain ⟨enough, result⟩ := returns
  exact ⟨enough, result enough (Nat.le_refl _)⟩

theorem of_constant (constant : ∀ fuel, run fuel = .ok a) : Returns run a :=
  ⟨0, fun fuel _ => constant fuel⟩

theorem round (others : Returns (fun fuel => run (fuel + 1)) a) : Returns run a := by
  obtain ⟨enough, result⟩ := others
  refine ⟨enough + 1, fun fuel more => ?_⟩
  cases fuel with
  | zero => exact absurd more (Nat.not_succ_le_zero enough)
  | succ fuel => exact result fuel (Nat.le_of_succ_le_succ more)

theorem bind {rest : α → Bounded β} (first : Returns run a) (second : Returns (rest a) b) :
    Returns (fun fuel => run fuel >>= fun value => rest value fuel) b := by
  obtain ⟨enoughFirst, first⟩ := first
  obtain ⟨enoughSecond, second⟩ := second
  refine ⟨max enoughFirst enoughSecond, fun fuel enough => ?_⟩
  have enoughFor := Nat.max_le.mp enough
  simp only [first fuel enoughFor.1]
  exact second fuel enoughFor.2

theorem bind_error {rest : α → Bounded β} (first : Returns run a) (stop : Stop)
    (fails : ∀ fuel, rest a fuel = .error stop) (result : β) :
    ¬ Returns (fun fuel => run fuel >>= fun value => rest value fuel) result := by
  intro returns
  obtain ⟨enough, first⟩ := first
  obtain ⟨more, returns⟩ := returns
  have done := returns (max enough more) (Nat.le_max_right _ _)
  simp only [first (max enough more) (Nat.le_max_left _ _), Bind.bind, Except.bind, fails] at done
  cases done

end Returns

namespace Ends

variable {run : Bounded α} {result : Except Stop α}

theorem unique {other : Except Stop α} (first : Ends run result) (second : Ends run other) :
    result = other := by
  obtain ⟨enoughFirst, first⟩ := first
  obtain ⟨enoughSecond, second⟩ := second
  have left := first (max enoughFirst enoughSecond) (Nat.le_max_left _ _)
  exact left.symm.trans (second _ (Nat.le_max_right _ _))

theorem of_constant (constant : ∀ fuel, run fuel = result) : Ends run result :=
  ⟨0, fun fuel _ => constant fuel⟩

theorem round (others : Ends (fun fuel => run (fuel + 1)) result) : Ends run result := by
  obtain ⟨enough, ends⟩ := others
  refine ⟨enough + 1, fun fuel more => ?_⟩
  cases fuel with
  | zero => exact absurd more (Nat.not_succ_le_zero enough)
  | succ fuel => exact ends fuel (Nat.le_of_succ_le_succ more)

theorem bind {rest : α → Bounded β} {value : α} {result : Except Stop β} (first : Returns run value)
    (second : Ends (rest value) result) :
    Ends (fun fuel => run fuel >>= fun value => rest value fuel) result := by
  obtain ⟨enoughFirst, first⟩ := first
  obtain ⟨enoughSecond, second⟩ := second
  refine ⟨max enoughFirst enoughSecond, fun fuel enough => ?_⟩
  have enoughFor := Nat.max_le.mp enough
  simp only [first fuel enoughFor.1]
  exact second fuel enoughFor.2

theorem bind_error {rest : α → Bounded β} {stop : Stop} (fails : Ends run (.error stop)) :
    Ends (fun fuel => run fuel >>= fun value => rest value fuel) (.error stop) := by
  obtain ⟨enough, fails⟩ := fails
  exact ⟨enough, fun fuel more => by simp only [fails fuel more, error_bind]⟩

end Ends

/-- The execution ends, with a value of this kind or with a stop that is allowed. -/
def Halts (allowed : Stop → Prop) (run : Bounded α) (post : α → Prop) : Prop :=
  (∃ value, Returns run value ∧ post value) ∨ ∃ stop, Ends run (.error stop) ∧ allowed stop

namespace Halts

variable {allowed : Stop → Prop} {run : Bounded α} {post : α → Prop}

theorem of_returns {value : α} (returns : Returns run value) (holds : post value) :
    Halts allowed run post :=
  .inl ⟨value, returns, holds⟩

theorem of_error {stop : Stop} (ends : Ends run (.error stop)) (isAllowed : allowed stop) :
    Halts allowed run post :=
  .inr ⟨stop, ends, isAllowed⟩

theorem mono {others : Stop → Prop} (halts : Halts allowed run post)
    (implies : ∀ stop, allowed stop → others stop) : Halts others run post := by
  rcases halts with returns | stops
  · exact .inl returns
  · obtain ⟨stop, stops, isAllowed⟩ := stops
    exact of_error stops (implies stop isAllowed)

theorem ends (halts : Halts allowed run post) :
    ∃ result, Ends run result ∧ ∀ stop, result = .error stop → allowed stop := by
  rcases halts with returns | stops
  · obtain ⟨value, returns, _⟩ := returns
    exact ⟨.ok value, returns, fun stop same => by cases same⟩
  · obtain ⟨stop, ends, isAllowed⟩ := stops
    refine ⟨.error stop, ends, fun other same => ?_⟩
    cases same
    exact isAllowed

theorem via {onward : Bounded α} (halts : Halts allowed onward post)
    (ends : ∀ result, Ends onward result → Ends run result) : Halts allowed run post := by
  rcases halts with returns | stops
  · obtain ⟨value, returns, holds⟩ := returns
    exact of_returns (ends _ returns) holds
  · obtain ⟨stop, stops, isAllowed⟩ := stops
    exact of_error (ends _ stops) isAllowed

theorem returns_iff {onward : Bounded α} (halts : Halts allowed onward post)
    (ends : ∀ result, Ends onward result → Ends run result) :
    (∃ value, Returns run value) ↔ ∃ value, Returns onward value := by
  refine ⟨fun returns => ?_, fun returns => ?_⟩
  · obtain ⟨value, returns⟩ := returns
    obtain ⟨result, found, _⟩ := halts.ends
    rw [(ends _ found).unique returns] at found
    exact ⟨value, found⟩
  · obtain ⟨value, returns⟩ := returns
    exact ⟨value, ends _ returns⟩

theorem round (others : Halts allowed (fun fuel => run (fuel + 1)) post) : Halts allowed run post :=
  others.via fun _ => Ends.round

theorem bind {rest : α → Bounded β} {final : β → Prop} (first : Halts allowed run post)
    (second : ∀ value, post value → Halts allowed (rest value) final) :
    Halts allowed (fun fuel => run fuel >>= fun value => rest value fuel) final := by
  rcases first with returns | stops
  · obtain ⟨value, returns, holds⟩ := returns
    rcases second value holds with onward | onward
    · obtain ⟨result, onward, isFinal⟩ := onward
      exact of_returns (returns.bind onward) isFinal
    · obtain ⟨stop, onward, isAllowed⟩ := onward
      exact of_error (Ends.bind returns onward) isAllowed
  · obtain ⟨stop, ends, isAllowed⟩ := stops
    exact of_error ends.bind_error isAllowed

end Halts

/-- The execution ends: with a value of this kind under the condition, and with a panic otherwise. -/
structure Decides (passes : Prop) (run : Bounded α) (post : α → Prop) : Prop where
  returns : passes → ∃ value, Returns run value ∧ post value
  panics : ¬ passes → ∃ message, Ends run (.error (.panic message))

namespace Decides

variable {passes : Prop} {run : Bounded α} {post : α → Prop}

theorem of_returns {value : α} (passed : passes) (returns : Returns run value)
    (holds : post value) : Decides passes run post :=
  ⟨fun _ => ⟨value, returns, holds⟩, fun failed => absurd passed failed⟩

theorem of_panic {message : String} (failed : ¬ passes)
    (ends : Ends run (.error (.panic message))) : Decides passes run post :=
  ⟨fun passed => absurd passed failed, fun _ => ⟨message, ends⟩⟩

theorem congr {other : Prop} (decides : Decides passes run post) (same : passes ↔ other) :
    Decides other run post :=
  ⟨fun holds => decides.returns (same.mpr holds), fun fails => decides.panics fun holds =>
    fails (same.mp holds)⟩

theorem bind {rest : α → Bounded β} {more : Prop} {final : β → Prop}
    (first : Decides passes run post)
    (second : passes → ∀ value, post value → Decides more (rest value) final) :
    Decides (passes ∧ more) (fun fuel => run fuel >>= fun value => rest value fuel) final := by
  constructor
  · intro both
    obtain ⟨value, returns, holds⟩ := first.returns both.1
    obtain ⟨result, onward, isFinal⟩ := (second both.1 value holds).returns both.2
    exact ⟨result, returns.bind onward, isFinal⟩
  · intro fails
    by_cases passed : passes
    · obtain ⟨value, returns, holds⟩ := first.returns passed
      obtain ⟨message, onward⟩ := (second passed value holds).panics fun more => fails ⟨passed, more⟩
      exact ⟨message, Ends.bind returns onward⟩
    · obtain ⟨message, ends⟩ := first.panics passed
      exact ⟨message, ends.bind_error⟩

theorem after {rest : α → Bounded β} {value : α} {final : β → Prop} (first : Returns run value)
    (second : Decides passes (rest value) final) :
    Decides passes (fun fuel => run fuel >>= fun value => rest value fuel) final := by
  constructor
  · intro passed
    obtain ⟨result, onward, isFinal⟩ := second.returns passed
    exact ⟨result, first.bind onward, isFinal⟩
  · intro failed
    obtain ⟨message, onward⟩ := second.panics failed
    exact ⟨message, Ends.bind first onward⟩

theorem returns_iff (decides : Decides passes run post) : (∃ value, Returns run value) ↔ passes := by
  constructor
  · intro returns
    obtain ⟨value, returns⟩ := returns
    refine Classical.byContradiction fun failed => ?_
    obtain ⟨message, ends⟩ := decides.panics failed
    cases ends.unique returns
  · intro passed
    obtain ⟨value, returns, _⟩ := decides.returns passed
    exact ⟨value, returns⟩

theorem post_of_returns {value : α} (decides : Decides passes run post)
    (returns : Returns run value) : post value := by
  obtain ⟨result, returned, holds⟩ := decides.returns (decides.returns_iff.mp ⟨value, returns⟩)
  rwa [returned.unique returns] at holds

end Decides

theorem Diverges.not_returns {run : Bounded α} (diverges : Diverges run) :
    ¬ Returns run a := by
  intro returns
  obtain ⟨fuel, result⟩ := returns.some_fuel
  rw [diverges fuel] at result
  cases result

end Ucore.Data
