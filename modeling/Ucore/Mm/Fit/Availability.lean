import Ucore.Mm.Fit.Steady

namespace Ucore.Mm.Fit

open Ucore.Data Ucore.Libs Extent

/-! Availability: a request is refused only when no run of free pages is long enough. -/

variable {base n m : Nat} {memory : FitMemory} {client last : Client FitMemory}
  {manager : FitManager} {blocks : List Extent} {trace : List (Client FitMemory × Request)}

/-- The region has `m` consecutive pages that belong to no outstanding block. -/
def Available (base n : Nat) (client : Client FitMemory) (m : Nat) : Prop :=
  ∃ start, base ≤ start ∧ start + m ≤ base + n ∧
    ∀ page, start ≤ page → page < start + m →
      ∀ block ∈ client.outstanding, page ∉ block.extent.points

def NoFalseOutOfMemory (manager : FitManager) (base n : Nat) (client : Client FitMemory) : Prop :=
  ∀ m, 1 ≤ m →
    ((∃ page after, Returns (manager.pmm.allocPages client.memory m) (some page, after)) ↔
      Available base n client m)

/-- From this page count on, a block of the whole region is not found by the search. -/
def regionLimit : FitManager → Nat
  | .firstFit => 2 ^ 32
  | .bestFit => 2 ^ 32 - 1

theorem Sound.available_of_listed {block : Extent} (sound : Sound base n client blocks)
    (fits : n < 2 ^ 32) (member : block ∈ blocks) (enough : m ≤ block.size) :
    Available base n client m := by
  have bound := sound.bounds (List.mem_append_left _ member) (sound.gapped.positive block member)
  rw [uint32_of_lt fits] at bound
  have packs := sound.tiles.packs
  rw [Multiset.coe_add] at packs
  have apart := (List.pairwise_append.mp packs.pairwise).2.2 block member
  refine ⟨block.start, bound.1, by omega, fun page low high other outstanding => ?_⟩
  exact disjoint_iff.mp (apart other.extent (List.mem_map_of_mem outstanding)) page
    (mem_points.mpr ⟨low, by omega⟩)

/-- Free neighbours are joined, so consecutive free pages are one listed block. -/
theorem Sound.listed_of_available (sound : Sound base n client blocks) (fits : n < 2 ^ 32)
    (positive : 0 < m) (available : Available base n client m) :
    ∃ block ∈ blocks, m ≤ block.size := by
  obtain ⟨start, lower, upper, unowned⟩ := available
  have covered : ∀ page, start ≤ page → page < start + m →
      ∃ block ∈ blocks, page ∈ block.points := by
    intro page low high
    have inside : page ∈ (⟨base, uint32 n⟩ : Extent).points := by
      rw [uint32_of_lt fits, mem_points]
      simp only
      omega
    obtain ⟨block, member, covers⟩ := sound.tiles.mem_iff.mpr inside
    rcases Multiset.mem_add.mp member with listed | owned
    · exact ⟨block, Multiset.mem_coe.mp listed, covers⟩
    · obtain ⟨other, outstanding, rfl⟩ := List.mem_map.mp (Multiset.mem_coe.mp owned)
      exact absurd covers (unowned page low high other outstanding)
  obtain ⟨block, member, starts, ends⟩ := sound.gapped.one_block positive covered
  exact ⟨block, member, by omega⟩

theorem regionLimit_le (fits : n < regionLimit manager) : n < 2 ^ 32 := by
  cases manager with
  | firstFit => exact fits
  | bestFit => exact fits.trans (by decide)

theorem Sound.noFalseOutOfMemory (sound : Sound base n client blocks)
    (fits : n < regionLimit manager) : NoFalseOutOfMemory manager base n client := by
  have small := regionLimit_le fits
  intro m positive
  rcases manager.allocPages_cases sound.list positive with ⟨refused, missed⟩ | taken
  · constructor
    · intro granted
      obtain ⟨page, after, granted⟩ := granted
      cases refused.unique granted
    · intro available
      obtain ⟨block, member, enough⟩ := sound.listed_of_available small positive available
      have listed := sound.size_le_nrFree member
      have limit := missed (enough.trans listed) block member enough
      have region : client.memory.nrFree ≤ n := by
        have balance := sound.balance
        have notMore := uint32_le n
        omega
      -- the search sees every block that fits in the region
      cases manager with
      | firstFit =>
          simp only [FitManager.sizeLimit] at limit
          omega
      | bestFit =>
          simp only [regionLimit] at fits
          simp only [FitManager.sizeLimit] at limit
          rw [uint32_of_lt (by omega)] at limit
          omega
  · obtain ⟨left, block, right, rfl, enough, granted⟩ := taken
    exact ⟨fun _ => sound.available_of_listed small (mem_middle.mpr (.inl rfl)) enough,
      fun _ => ⟨_, _, granted⟩⟩

/-- As long as every free keeps the order of the list, requests are refused only for lack of
consecutive free pages. -/
theorem no_false_out_of_memory (booted : Booted manager.pmm memory base n client)
    (run : Run (Step manager.pmm) client trace last) (fits : n < regionLimit manager)
    (order : ∀ taken ∈ trace, KeepsOrder taken.1 taken.2) :
    (∀ taken ∈ trace, NoFalseOutOfMemory manager base n taken.1) ∧
      NoFalseOutOfMemory manager base n last := by
  have some : uint32 n ≠ 0 := by
    rw [uint32_of_lt (regionLimit_le fits)]
    exact Nat.ne_of_gt (booted_positive booted)
  obtain ⟨passed, blocks, final⟩ := sound_run some booted run order
  refine ⟨fun taken member => ?_, final.noFalseOutOfMemory fits⟩
  obtain ⟨blocks, sound⟩ := passed taken member
  exact sound.noFalseOutOfMemory fits

theorem no_false_out_of_memory_served : ∃ client trace last,
    Booted FitManager.firstFit.pmm bootMemory 0 6 client ∧
      Run (Step FitManager.firstFit.pmm) client trace last ∧
      trace.map Prod.snd = [.alloc 2, .alloc 1, .alloc 1, .free ⟨2, 1⟩, .free ⟨0, 2⟩] ∧
      (∀ taken ∈ trace, NoFalseOutOfMemory .firstFit 0 6 taken.1) ∧
      NoFalseOutOfMemory .firstFit 0 6 last := by
  obtain ⟨client, trace, last, booted, run, labels, order⟩ := ordered_run
  exact ⟨client, trace, last, booted, run, labels,
    no_false_out_of_memory booted run (by decide) order⟩

/-- Both pages are free again, but a request for two pages is refused. -/
theorem false_out_of_memory :
    Reaches defaultPmmManager bootMemory 0 2
      [.alloc 1, .alloc 1, .free ⟨0, 1⟩, .free ⟨1, 1⟩]
      (¬ NoFalseOutOfMemory .firstFit 0 2 ·) ∧
    Reaches bestFitPmmManager bootMemory 0 2
      [.alloc 1, .alloc 1, .free ⟨0, 1⟩, .free ⟨1, 1⟩]
      (¬ NoFalseOutOfMemory .bestFit 0 2 ·) := by
  have broken (manager : FitManager) (client : Client FitMemory)
      (reached : (decide (client.outstanding = []) &&
        (manager.pmm.allocPages client.memory 2 9).toOption.any (·.1.isNone)) = true) :
      ¬ NoFalseOutOfMemory manager 0 2 client := by
    obtain ⟨none, refused⟩ := Bool.and_eq_true_iff.mp reached
    intro exact
    have available : Available 0 2 client 2 :=
      ⟨0, by simp, by simp, by simp [of_decide_eq_true none]⟩
    obtain ⟨page, after, granted⟩ := (exact 2 (by decide)).mpr available
    obtain ⟨answer, returns, isNone⟩ := (manager.steady.allocPages client.memory 2).computed refused
    rw [returns.unique granted] at isNone
    cases isNone
  constructor
  · exact script_reaches FitManager.firstFit.steady _ (broken .firstFit)
      (show (script _ 9 _ _ _ _ _).toOption.any _ = true by decide +kernel)
  · exact script_reaches FitManager.bestFit.steady _ (broken .bestFit)
      (show (script _ 9 _ _ _ _ _).toOption.any _ = true by decide +kernel)

end Ucore.Mm.Fit
