import Mathlib.Algebra.GroupWithZero.Nat
import Ucore.Mm.Fit.Ownership

namespace Ucore.Mm.Fit

open Ucore.Data Ucore.Libs Extent

/-! The representation of the free list: links in both directions, order, flags, counter. -/

variable {base n : Nat} {memory : FitMemory} {client last next : Client FitMemory}
  {manager : FitManager} {blocks : List Extent} {trace : List (Client FitMemory × Request)}
  {request : Request}

structure WellFormed (base n : Nat) (memory : FitMemory) (heads : List Nat) : Prop where
  forth : Circuit (listNext memory.links) .freeList (heads.map .page)
  back : Circuit (listPrev memory.links) .freeList (heads.map .page).reverse
  inverse : ∀ link ∈ .freeList :: heads.map .page,
    listPrev memory.links (listNext memory.links link) = link ∧
      listNext memory.links (listPrev memory.links link) = link
  increasing : heads.Pairwise (· < ·)
  marked : ∀ head ∈ heads, PageProperty (memory.pages head).flags = true ∧
    1 ≤ (memory.pages head).property
  unmarked : ∀ page ∈ (⟨base, n⟩ : Extent).points, page ∉ heads →
    PageProperty (memory.pages page).flags = false
  counter : memory.nrFree = (heads.map fun head => (memory.pages head).property).sum

def ListFormed (base n : Nat) (client : Client FitMemory) : Prop :=
  ∃ heads, WellFormed base n client.memory heads

theorem Sound.head_mem (sound : Sound base n client blocks) {block : Extent}
    (member : block ∈ blocks) : block.start ∈ (⟨base, n⟩ : Extent).points := by
  have positive := sound.gapped.positive block member
  have bound := sound.bounds (List.mem_append_left _ member) positive
  have notMore := uint32_le n
  rw [mem_points]
  simp only
  omega

theorem Sound.wellFormed (sound : Sound base n client blocks) :
    WellFormed base n client.memory (blocks.map Extent.start) := by
  have isList := sound.list.isList
  rw [entries_eq] at isList
  refine ⟨isList.circuit, isList.reverse.circuit,
    fun link member => ⟨isList.prev_next member, isList.next_prev member⟩, sound.gapped.sorted,
    fun head member => ?_, fun page inside notHead => ?_, ?_⟩
  · obtain ⟨block, listed, rfl⟩ := List.mem_map.mp member
    rw [sound.list.flags _ (sound.head_mem listed), if_pos member, sound.list.property block listed]
    exact ⟨rfl, sound.gapped.positive block listed⟩
  · rw [sound.list.flags page inside, if_neg notHead]
    rfl
  · have sizes : blocks.map Extent.size =
        blocks.map ((fun head => (client.memory.pages head).property) ∘ Extent.start) :=
      List.map_congr_left fun block member => (sound.list.property block member).symm
    rw [sound.nrFree_eq, List.map_map, ← sizes]
    simp [total]

/-- A region whose page count is a multiple of `2^32` is listed as a block of no pages. -/
theorem empty_not_wellFormed (booted : Booted manager.pmm memory base n client)
    (empty : uint32 n = 0) : ¬ ListFormed base n client := by
  have result := booted.1
  rw [FitManager.pmm_initMemmap, FitManager.pmm_init] at result
  obtain ⟨_, _, list⟩ := fitInitMemmap_ok result
  intro formed
  obtain ⟨heads, formed⟩ := formed
  obtain rfl := (circuit_iff list).mp formed.forth
  have size := list.property ⟨base, uint32 n⟩ (by simp)
  have positive := (formed.marked base (by simp)).2
  simp only [empty] at size
  omega

/-- A free that breaks the order breaks the list. -/
theorem Sound.step_spoiled (sound : Sound base n client blocks)
    (disorder : ¬ KeepsOrder client request) (step : Step manager.pmm client request next) :
    ¬ ListFormed base n next := by
  cases step with
  | allocated => exact absurd trivial disorder
  | refused => exact absurd trivial disorder
  | @freed memory after outstanding block member result =>
      obtain ⟨after, returns, broken⟩ := sound.spoiled member disorder
      rw [FitManager.pmm_freePages] at result
      cases returns.unique result
      intro formed
      obtain ⟨heads, formed⟩ := formed
      exact broken.one_way formed.forth formed.back

/-- The free list is well formed throughout a run exactly when its page count is not a multiple
of `2^32` and every free keeps the order. -/
theorem wellFormed_iff (booted : Booted manager.pmm memory base n client)
    (run : Run (Step manager.pmm) client trace last) :
    ((∀ taken ∈ trace, ListFormed base n taken.1) ∧ ListFormed base n last) ↔
      uint32 n ≠ 0 ∧ ∀ taken ∈ trace, KeepsOrder taken.1 taken.2 := by
  by_cases empty : uint32 n = 0
  · refine ⟨fun formed => ?_, fun conditions => absurd empty conditions.1⟩
    exact absurd (run.first_visited formed) (empty_not_wellFormed booted empty)
  · have exact := run.good_iff (∃ blocks, Sound base n · blocks)
      (ListFormed base n)
      (fun sound order step => sound.elim fun _ sound => sound.step order step)
      (fun sound => sound.elim fun _ sound => ⟨_, sound.wellFormed⟩)
      (fun sound disorder step => sound.elim fun _ sound => sound.step_spoiled disorder step)
      ⟨_, Sound.initial booted empty⟩
    rw [exact]
    exact ⟨fun order => ⟨empty, order⟩, fun conditions => conditions.2⟩

theorem wellFormed_served : ∃ client trace last,
    Booted FitManager.firstFit.pmm bootMemory 0 6 client ∧
      Run (Step FitManager.firstFit.pmm) client trace last ∧
      trace.map Prod.snd = [.alloc 2, .alloc 1, .alloc 1, .free ⟨2, 1⟩, .free ⟨0, 2⟩] ∧
      (∀ taken ∈ trace, ListFormed 0 6 taken.1) ∧ ListFormed 0 6 last := by
  obtain ⟨client, trace, last, booted, run, labels, order⟩ := ordered_run
  exact ⟨client, trace, last, booted, run, labels,
    (wellFormed_iff booted run).mpr ⟨by decide, order⟩⟩

/-- Two single pages freed in address order leave the second one linked back to itself. -/
theorem list_malformed :
    Reaches defaultPmmManager bootMemory 0 2
      [.alloc 1, .alloc 1, .free ⟨0, 1⟩, .free ⟨1, 1⟩] (¬ ListFormed 0 2 ·) ∧
    Reaches bestFitPmmManager bootMemory 0 2
      [.alloc 1, .alloc 1, .free ⟨0, 1⟩, .free ⟨1, 1⟩] (¬ ListFormed 0 2 ·) := by
  have broken (client : Client FitMemory)
      (reached : decide (heads client.memory.links 9 .freeList = some [0, 1] ∧
        listPrev client.memory.links (.page 1) = .page 1) = true) : ¬ ListFormed 0 2 client := by
    obtain ⟨walked, selfLink⟩ := of_decide_eq_true reached
    have broken : SelfLinked client.memory 1 := ⟨[0, 1], heads_circuit walked, by simp, selfLink⟩
    intro formed
    obtain ⟨heads, formed⟩ := formed
    exact broken.one_way formed.forth formed.back
  constructor
  · exact script_reaches FitManager.firstFit.steady _ broken
      (show (script _ 9 _ _ _ _ _).toOption.any _ = true by decide +kernel)
  · exact script_reaches FitManager.bestFit.steady _ broken
      (show (script _ 9 _ _ _ _ _).toOption.any _ = true by decide +kernel)

end Ucore.Mm.Fit
