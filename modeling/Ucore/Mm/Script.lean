import Ucore.Mm.Pmm

namespace Ucore.Mm

open Ucore.Data

/-! Runs that are computed from a list of requests. -/

variable {σ : Type} {manager : PmmManager σ} {memory : σ} {client last : Client σ}
  {requests : List Request} {check : Client σ → Request → Bool} {fuel base n : Nat}

/-- More fuel changes no result of the manager. -/
structure PmmManager.SteadyOps (manager : PmmManager σ) : Prop where
  initMemmap : ∀ memory base n, Steady (manager.initMemmap memory base n)
  allocPages : ∀ memory n, Steady (manager.allocPages memory n)
  freePages : ∀ memory base n, Steady (manager.freePages memory base n)

def serve (manager : PmmManager σ) (fuel : Nat) (client : Client σ) :
    Request → Except Stop (Client σ)
  | .alloc count => do
      match ← manager.allocPages client.memory count fuel with
      | (some page, memory) => .ok ⟨memory, ⟨page, count⟩ :: client.outstanding⟩
      | (none, memory) => .ok ⟨memory, client.outstanding⟩
  | .free block =>
      if block ∈ client.outstanding then do
        let memory ← manager.freePages client.memory block.page block.count fuel
        .ok ⟨memory, client.outstanding.erase block⟩
      else
        .error (.panic "not outstanding")

/-- `init`, one `init_memmap` and the requests. -/
def script (manager : PmmManager σ) (fuel : Nat) (check : Client σ → Request → Bool)
    (memory : σ) (base n : Nat) (requests : List Request) : Except Stop (Client σ) := do
  let memory ← manager.initMemmap (manager.init memory) base n fuel
  performAll (.panic "check failed") check (serve manager fuel) ⟨memory, []⟩ requests

theorem Booted.unique (first : Booted manager memory base n client)
    (second : Booted manager memory base n last) : client = last := by
  obtain ⟨memory, outstanding⟩ := client
  obtain ⟨memory', outstanding'⟩ := last
  obtain ⟨returns, none⟩ := first
  obtain ⟨returns', none'⟩ := second
  cases returns.unique returns'
  cases none
  cases none'
  rfl

theorem serve_step (steady : manager.SteadyOps) {request : Request}
    (served : serve manager fuel client request = .ok last) : Step manager client request last := by
  obtain ⟨memory, outstanding⟩ := client
  cases request with
  | alloc count =>
      cases result : manager.allocPages memory count fuel with
      | error stop => simp [serve, result, Bind.bind, Except.bind] at served
      | ok answer =>
          have returns := (steady.allocPages memory count).returns result
          simp only [serve, result, Bind.bind, Except.bind] at served
          obtain ⟨found, after⟩ := answer
          cases found with
          | none =>
              cases served
              exact .refused returns
          | some page =>
              cases served
              exact .allocated returns
  | free block =>
      by_cases member : block ∈ outstanding
      · cases result : manager.freePages memory block.page block.count fuel with
        | error stop => simp [serve, member, result, Bind.bind, Except.bind] at served
        | ok after =>
            have returns := (steady.freePages memory block.page block.count).returns result
            simp only [serve, if_pos member, result, Bind.bind, Except.bind] at served
            cases served
            exact .freed member returns
      · simp [serve, member] at served

theorem script_run (steady : manager.SteadyOps) (goal : Client σ → Bool)
    (reached : (script manager fuel check memory base n requests).toOption.any goal = true) :
    ∃ client trace last, Booted manager memory base n client ∧
      Run (Step manager) client trace last ∧ trace.map Prod.snd = requests ∧
      (∀ taken ∈ trace, check taken.1 taken.2 = true) ∧ goal last = true := by
  cases done : script manager fuel check memory base n requests with
  | error stop => simp [done, Except.toOption] at reached
  | ok last =>
      obtain ⟨after, booted, served⟩ := bind_eq_ok.mp done
      obtain ⟨trace, run, labels, checked⟩ := Run.of_performAll (serve_step steady) served
      refine ⟨_, trace, last, ⟨(steady.initMemmap _ _ _).returns booted, rfl⟩, run, labels,
        checked, ?_⟩
      simpa [done, Except.toOption] using reached

theorem script_reaches (steady : manager.SteadyOps) (goal : Client σ → Bool)
    {property : Client σ → Prop} (sound : ∀ client, goal client = true → property client)
    (reached : (script manager fuel (fun _ _ => true) memory base n requests).toOption.any goal
      = true) : Reaches manager memory base n requests property := by
  obtain ⟨client, trace, last, booted, run, labels, _, holds⟩ := script_run steady goal reached
  exact ⟨client, trace, last, booted, run, labels, sound last holds⟩

end Ucore.Mm
