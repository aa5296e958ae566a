import Ucore.Data.Bounded

namespace Ucore.Data

/-! Two executions that stop in the same way, or return results that are related. -/

inductive Lockstep (related : α → β → Prop) : Except Stop α → Except Stop β → Prop where
  | ok (relates : related a b) : Lockstep related (.ok a) (.ok b)
  | error (stop : Stop) : Lockstep related (.error stop) (.error stop)

namespace Lockstep

variable {related : α → β → Prop} {final : α' → β' → Prop} {first : Except Stop α}
  {second : Except Stop β}

theorem bind {rest : α → Except Stop α'} {onward : β → Except Stop β'}
    (lockstep : Lockstep related first second)
    (later : ∀ a b, related a b → Lockstep final (rest a) (onward b)) :
    Lockstep final (first >>= rest) (second >>= onward) := by
  cases lockstep with
  | ok relates => exact later _ _ relates
  | error stop => exact .error stop

theorem mono {weaker : α → β → Prop} (lockstep : Lockstep related first second)
    (implies : ∀ a b, related a b → weaker a b) : Lockstep weaker first second := by
  cases lockstep with
  | ok relates => exact .ok (implies _ _ relates)
  | error stop => exact .error stop

theorem traced (lockstep : Lockstep related first second) :
    Lockstep (fun a b => related a b ∧ second = .ok b) first second := by
  cases lockstep with
  | ok relates => exact .ok ⟨relates, rfl⟩
  | error stop => exact .error stop

theorem swap (lockstep : Lockstep related first second) :
    Lockstep (fun b a => related a b) second first := by
  cases lockstep with
  | ok relates => exact .ok relates
  | error stop => exact .error stop

theorem left_ok (lockstep : Lockstep related first (.ok b)) : ∃ a, first = .ok a ∧ related a b := by
  cases lockstep with
  | ok relates => exact ⟨_, rfl, relates⟩

end Lockstep

theorem Returns.follow {related : α → β → Prop} {run : Bounded α} {other : Bounded β}
    (returns : Returns other b) (steady : Steady run)
    (lockstep : ∀ fuel, Lockstep related (run fuel) (other fuel)) :
    ∃ a, Returns run a ∧ related a b := by
  obtain ⟨fuel, done⟩ := returns.some_fuel
  obtain ⟨a, ran, relates⟩ := (done ▸ lockstep fuel).left_ok
  exact ⟨a, steady.returns ran, relates⟩

/-- The outcome of an execution is known from one that was computed. -/
theorem Steady.follow_computed {related : α → β → Prop} {run : Bounded α} {other : Bounded β}
    {check : β → Bool} (steady : Steady run)
    (lockstep : ∀ fuel, Lockstep related (run fuel) (other fuel))
    (computed : (other fuel).toOption.any check = true) :
    ∃ a b, Returns run a ∧ related a b ∧ check b = true := by
  cases done : other fuel with
  | error stop => simp [done, Except.toOption] at computed
  | ok b =>
      obtain ⟨a, ran, relates⟩ := (done ▸ lockstep fuel).left_ok
      exact ⟨a, b, steady.returns ran, relates, by simpa [done, Except.toOption] using computed⟩

end Ucore.Data
