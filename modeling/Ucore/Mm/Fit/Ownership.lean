import Ucore.Mm.Fit.Invariant
import Ucore.Mm.Fit.Steady

namespace Ucore.Mm.Fit

open Ucore.Data Ucore.Libs Extent

/-! Exclusive ownership: every page of the region has exactly one owner, a client or the list. -/

variable {base n : Nat} {memory : FitMemory} {client last : Client FitMemory}
  {manager : FitManager} {blocks : List Extent} {trace : List (Client FitMemory × Request)}

/-- The block with this head: it covers `property` pages. -/
def listed (memory : FitMemory) (head : Nat) : Extent := ⟨head, (memory.pages head).property⟩

def ExclusiveOwnership (base n : Nat) (client : Client FitMemory) : Prop :=
  ∃ heads : List Nat, Circuit (listNext client.memory.links) .freeList (heads.map .page) ∧
    (owned client.outstanding).Pairwise
      (fun first second => Disjoint first.points second.points) ∧
    (∀ block ∈ owned client.outstanding, ∀ other ∈ heads.map (listed client.memory),
      Disjoint block.points other.points) ∧
    ∀ page, (∃ block ∈ owned client.outstanding ++ heads.map (listed client.memory),
      page ∈ block.points) ↔ page ∈ (⟨base, n⟩ : Extent).points

theorem FreeList.listed_eq {region : Extent} (list : FreeList memory region blocks) :
    (blocks.map Extent.start).map (listed memory) = blocks := by
  rw [List.map_map]
  calc blocks.map (listed memory ∘ Extent.start)
      = blocks.map id := List.map_congr_left fun block member => by
        simp [listed, list.property block member]
    _ = blocks := List.map_id blocks

theorem Sound.exclusiveOwnership (sound : Sound base n client blocks) (fits : n < 2 ^ 32) :
    ExclusiveOwnership base n client := by
  have packs := sound.tiles.packs
  rw [Multiset.coe_add] at packs
  obtain ⟨_, apart, cross⟩ := List.pairwise_append.mp packs.pairwise
  refine ⟨blocks.map Extent.start, (circuit_iff sound.list).mpr rfl, apart, ?_, fun page => ?_⟩
  · rw [sound.list.listed_eq]
    exact fun block own other free => (cross other free block own).symm
  · have covered := @Tiles.mem_iff _ _ page sound.tiles
    rw [uint32_of_lt fits] at covered
    rw [sound.list.listed_eq, ← covered]
    simp only [Multiset.coe_add, Multiset.mem_coe, List.mem_append, or_comm]

/-- As long as every free keeps the order of the list, no page has two owners and none is lost. -/
theorem exclusive_ownership (booted : Booted manager.pmm memory base n client)
    (run : Run (Step manager.pmm) client trace last) (fits : n < 2 ^ 32)
    (order : ∀ taken ∈ trace, KeepsOrder taken.1 taken.2) :
    (∀ taken ∈ trace, ExclusiveOwnership base n taken.1) ∧ ExclusiveOwnership base n last := by
  have some : uint32 n ≠ 0 := by
    rw [uint32_of_lt fits]
    exact Nat.ne_of_gt (booted_positive booted)
  obtain ⟨passed, blocks, final⟩ := sound_run some booted run order
  refine ⟨fun taken member => ?_, final.exclusiveOwnership fits⟩
  obtain ⟨blocks, sound⟩ := passed taken member
  exact sound.exclusiveOwnership fits

theorem exclusive_ownership_served : ∃ client trace last,
    Booted FitManager.firstFit.pmm bootMemory 0 6 client ∧
      Run (Step FitManager.firstFit.pmm) client trace last ∧
      trace.map Prod.snd = [.alloc 2, .alloc 1, .alloc 1, .free ⟨2, 1⟩, .free ⟨0, 2⟩] ∧
      (∀ taken ∈ trace, ExclusiveOwnership 0 6 taken.1) ∧ ExclusiveOwnership 0 6 last := by
  obtain ⟨client, trace, last, booted, run, labels, order⟩ := ordered_run
  exact ⟨client, trace, last, booted, run, labels,
    exclusive_ownership booted run (by decide) order⟩

theorem shared_not_exclusive (client : Client FitMemory) (block : Allocation)
    (rest : List Allocation) (positive : 0 < block.count)
    (shared : client.outstanding = block :: block :: rest) :
    ¬ ExclusiveOwnership base n client := by
  intro exclusive
  obtain ⟨heads, _, apart, _⟩ := exclusive
  rw [shared] at apart
  have disjoint := (List.pairwise_cons.mp apart).1 block.extent (by simp)
  have first : block.page ∈ block.extent.points :=
    mem_points.mpr ⟨le_rfl, Nat.lt_add_of_pos_right positive⟩
  exact disjoint_iff.mp disjoint block.page first first

/-- Two frees behind the last entry, and pages 4 and 5 are handed out twice. -/
theorem pages_handed_out_twice :
    Reaches defaultPmmManager bootMemory 0 6
      [.alloc 1, .alloc 1, .alloc 1, .alloc 1, .alloc 2, .free ⟨2, 1⟩, .free ⟨0, 1⟩,
        .free ⟨4, 2⟩, .alloc 2, .alloc 2] (¬ ExclusiveOwnership 0 6 ·) ∧
    Reaches bestFitPmmManager bootMemory 0 6
      [.alloc 1, .alloc 1, .alloc 1, .alloc 1, .alloc 2, .free ⟨2, 1⟩, .free ⟨0, 1⟩,
        .free ⟨4, 2⟩, .alloc 2, .alloc 2] (¬ ExclusiveOwnership 0 6 ·) := by
  have broken (client : Client FitMemory)
      (reached : decide (client.outstanding = [⟨4, 2⟩, ⟨4, 2⟩, ⟨3, 1⟩, ⟨1, 1⟩]) = true) :
      ¬ ExclusiveOwnership 0 6 client :=
    shared_not_exclusive client ⟨4, 2⟩ _ (by decide) (of_decide_eq_true reached)
  constructor
  · exact script_reaches FitManager.firstFit.steady _ broken
      (show (script _ 9 _ _ _ _ _).toOption.any _ = true by decide +kernel)
  · exact script_reaches FitManager.bestFit.steady _ broken
      (show (script _ 9 _ _ _ _ _).toOption.any _ = true by decide +kernel)

end Ucore.Mm.Fit
