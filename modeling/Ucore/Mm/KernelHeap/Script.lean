import Ucore.Mm.KernelHeap.Calls

namespace Ucore.Mm.Slub

open Ucore.Data

/-! Runs of the heap that are computed from a list of requests. -/

variable {σ : Type} {manager : PmmManager σ} {memory : σ} {client next : HeapClient σ}
  {request : HeapRequest} {requests : List HeapRequest} {check : HeapClient σ → HeapRequest → Bool}
  {fuel base n : Nat}

def heapServe (manager : PmmManager σ) (fuel : Nat) (client : HeapClient σ) :
    HeapRequest → Except Stop (HeapClient σ)
  | .pages request => do
      let served ← serve manager fuel ⟨client.heap.pages, client.direct⟩ request
      .ok ⟨{ client.heap with pages := served.memory }, served.outstanding, client.live⟩
  | .fill block offset byte =>
      if block ∈ client.direct ∧ offset < block.count * PGSIZE then
        .ok ⟨⟨client.heap.pages, { client.heap.slub with
          bytes := Function.update client.heap.slub.bytes (kva block.page + offset) byte }⟩,
          client.direct, client.live⟩
      else .error (.panic "not held")
  | .slub (.kmalloc size) =>
      if size < 2 ^ 64 then do
        let (ptr, heap) ← kernelKmalloc manager client.heap size fuel
        .ok ⟨heap, client.direct, if ptr = NULL then client.live else ⟨ptr, size⟩ :: client.live⟩
      else .error (.panic "no size_t")
  | .slub (.kfree object) =>
      if object ∈ client.live then
        .ok ⟨⟨client.heap.pages, kfree client.heap.slub object.address⟩, client.direct,
          client.live.erase object⟩
      else .error (.panic "not live")
  | .slub (.write object offset byte) =>
      if object ∈ client.live ∧ offset < object.size then
        .ok ⟨⟨client.heap.pages, { client.heap.slub with
          bytes := Function.update client.heap.slub.bytes (object.address + offset) byte }⟩,
          client.direct, client.live⟩
      else .error (.panic "not live")

/-- The boot and the requests, as long as each passes the check. -/
def heapScript (manager : PmmManager σ) (fuel : Nat) (check : HeapClient σ → HeapRequest → Bool)
    (memory : σ) (base n : Nat) (requests : List HeapRequest) : Except Stop (HeapClient σ) := do
  let pages ← manager.initMemmap (manager.init memory) base n fuel
  performAll (.panic "check failed") check (heapServe manager fuel)
    ⟨⟨pages, slubInit blank⟩, [], []⟩ requests

theorem heapServe_step (steady : manager.SteadyOps)
    (served : heapServe manager fuel client request = .ok next) :
    HeapStep manager client request next := by
  obtain ⟨⟨pages, slub⟩, direct, live⟩ := client
  cases request with
  | pages asked =>
      obtain ⟨⟨after, remaining⟩, result, served⟩ := bind_eq_ok.mp served
      cases served
      exact .pages (serve_step steady result)
  | fill block offset byte =>
      by_cases held : block ∈ direct ∧ offset < block.count * PGSIZE
      · rw [heapServe, if_pos held] at served
        cases served
        exact .filled held.1 held.2
      · rw [heapServe, if_neg held] at served
        cases served
  | slub asked =>
      cases asked with
      | kmalloc size =>
          by_cases wide : size < 2 ^ 64
          · rw [heapServe, if_pos wide] at served
            obtain ⟨⟨ptr, heap⟩, result, served⟩ := bind_eq_ok.mp served
            have returns := (kernelKmalloc_steady steady _ _).returns result
            cases served
            by_cases null : ptr = NULL
            · rw [if_pos null]
              exact .refused wide (null ▸ returns)
            · rw [if_neg null]
              exact .allocated wide returns null
          · rw [heapServe, if_neg wide] at served
            cases served
      | kfree object =>
          by_cases member : object ∈ live
          · rw [heapServe, if_pos member] at served
            cases served
            exact .freed member
          · rw [heapServe, if_neg member] at served
            cases served
      | write object offset byte =>
          by_cases held : object ∈ live ∧ offset < object.size
          · rw [heapServe, if_pos held] at served
            cases served
            exact .wrote held.1 held.2
          · rw [heapServe, if_neg held] at served
            cases served

theorem heapScript_run (steady : manager.SteadyOps) (goal : HeapClient σ → Bool)
    (reached : (heapScript manager fuel check memory base n requests).toOption.any goal = true) :
    ∃ client trace last, HeapBooted manager memory base n client ∧
      Run (HeapStep manager) client trace last ∧ trace.map Prod.snd = requests ∧
      (∀ taken ∈ trace, check taken.1 taken.2 = true) ∧ goal last = true := by
  cases done : heapScript manager fuel check memory base n requests with
  | error stop => simp [done, Except.toOption] at reached
  | ok last =>
      obtain ⟨pages, booted, served⟩ := bind_eq_ok.mp done
      obtain ⟨trace, run, labels, checked⟩ := Run.of_performAll (heapServe_step steady) served
      have initial : Booted manager memory base n ⟨pages, []⟩ :=
        ⟨(steady.initMemmap _ _ _).returns booted, rfl⟩
      refine ⟨_, trace, last, ⟨initial, rfl, rfl, blank, rfl, rfl⟩, run, labels, checked, ?_⟩
      simpa [done, Except.toOption] using reached

end Ucore.Mm.Slub
