import Ucore.Mm.Buddy.Steady

namespace Ucore.Mm.Buddy

open Ucore.Data Ucore.Libs Extent Block

/-! Alignment: blocks start at multiples of their size if the first block of the region does. -/

variable {layout : Layout} {memory : BuddyMemory} {client next last : Client BuddyMemory}
  {free after : Finset Block} {base n : Nat} {trace : List (Client BuddyMemory × Request)}
  {request : Request} {outstanding remaining : List Allocation}

structure BlocksAligned (layout : Layout) (client : Client BuddyMemory) : Prop where
  listed : ∀ order ≤ MAX_ORDER, ∃ starts, FreeListOf layout client.memory order starts ∧
    ∀ start ∈ starts, 2 ^ order ∣ start
  returned : ∀ allocation ∈ client.outstanding, ∃ order,
    Returns (sizeToOrder allocation.count) order ∧ 2 ^ order ∣ allocation.page

structure AllAligned (free : Finset Block) (outstanding : List Allocation) : Prop where
  free : ∀ block ∈ free, block.Aligned
  outstanding : ∀ allocation ∈ outstanding, (blockOf allocation).Aligned

theorem AllAligned.move (aligned : AllAligned free outstanding)
    (move : Move free outstanding request after remaining) : AllAligned after remaining := by
  cases move with
  | refuse => exact aligned
  | @carve block count member positive reach least =>
      have whole := aligned.free block member
      refine ⟨fun other listed => ?_, fun other listed => ?_⟩
      · rcases mem_carve.mp listed with kept | ⟨order, _, below, isHalf⟩
        · exact aligned.free other (Finset.mem_of_mem_erase kept)
        · have level : order ≤ block.order := by omega
          rw [isHalf, Aligned]
          exact Nat.dvd_add ((Nat.pow_dvd_pow 2 level).trans whole) (Nat.dvd_refl _)
      · rcases List.mem_cons.mp listed with isNew | old
        · rw [isNew, Aligned]
          exact (Nat.pow_dvd_pow 2 reach).trans whole
        · exact aligned.outstanding other old
  | release member =>
      refine ⟨release_forall aligned.free (aligned.outstanding _ member) fun _ holds _ => holds.merge,
        fun other listed => aligned.outstanding other (List.mem_of_mem_erase listed)⟩

theorem Sound.blocksAligned_iff (sound : Sound layout base n client free) :
    BlocksAligned layout client ↔ AllAligned free client.outstanding := by
  obtain ⟨lists, shown⟩ := sound.holds.freeLists
  constructor
  · intro aligned
    refine ⟨fun block member => ?_, fun allocation member => ?_⟩
    · have bound := sound.holds.order_le member
      obtain ⟨freeList, _, members⟩ := shown block.order bound
      obtain ⟨starts, same, divides⟩ := aligned.listed block.order bound
      rw [same.unique freeList] at divides
      exact divides block.start ((members block.start).mpr member)
    · obtain ⟨order, returns, divides⟩ := aligned.returned allocation member
      rw [Aligned, (sound.consistent.sized member).unique returns]
      exact divides
  · intro aligned
    refine ⟨fun order bound => ?_, fun allocation member => ?_⟩
    · obtain ⟨freeList, _, members⟩ := shown order bound
      exact ⟨_, freeList, fun start member => aligned.free _ ((members start).mp member)⟩
    · exact ⟨_, sound.consistent.sized member, aligned.outstanding allocation member⟩

/-- A sound state in which all blocks are aligned. -/
def SoundAligned (layout : Layout) (base n : Nat) (client : Client BuddyMemory) : Prop :=
  ∃ free, Sound layout base n client free ∧ AllAligned free client.outstanding

theorem SoundAligned.preserved (reached : SoundAligned layout base n client) (_ : True)
    (step : Step (buddyPmmManager layout) client request next) :
    SoundAligned layout base n next := by
  obtain ⟨free, sound, aligned⟩ := reached
  obtain ⟨after, move, sound⟩ := sound.step step
  exact ⟨after, sound, aligned.move move⟩

theorem booted_aligned_iff (booted : Booted (buddyPmmManager layout) memory base n client) :
    BlocksAligned layout client ↔ 2 ^ min MAX_ORDER (Nat.log 2 n) ∣ base := by
  obtain ⟨positive, free, sound, cut⟩ := booted_cut booted
  have some : base + n ≠ base := by omega
  rw [sound.blocksAligned_iff, ← cut.aligned_iff some, booted.2]
  constructor
  · intro aligned
    exact aligned.free
  · intro aligned
    exact ⟨aligned, by simp⟩

theorem aligned_run_of_booted (booted : Booted (buddyPmmManager layout) memory base n client)
    (run : Run (Step (buddyPmmManager layout)) client trace last)
    (divides : 2 ^ min MAX_ORDER (Nat.log 2 n) ∣ base) :
    (∀ taken ∈ trace, SoundAligned layout base n taken.1) ∧ SoundAligned layout base n last := by
  obtain ⟨_, free, sound, _⟩ := booted_cut booted
  have aligned := sound.blocksAligned_iff.mp ((booted_aligned_iff booted).mpr divides)
  exact run.invariant (SoundAligned layout base n) SoundAligned.preserved ⟨free, sound, aligned⟩
    fun _ _ => trivial

/-- All blocks of a run are aligned exactly if the region starts at a multiple of the first block
that `buddy_init_memmap` cuts from it. -/
theorem blocks_aligned_iff (booted : Booted (buddyPmmManager layout) memory base n client)
    (run : Run (Step (buddyPmmManager layout)) client trace last) :
    ((∀ taken ∈ trace, BlocksAligned layout taken.1) ∧ BlocksAligned layout last) ↔
      2 ^ min MAX_ORDER (Nat.log 2 n) ∣ base := by
  constructor
  · intro visited
    exact (booted_aligned_iff booted).mp (run.first_visited visited)
  · intro divides
    obtain ⟨passed, free, sound, aligned⟩ := aligned_run_of_booted booted run divides
    refine ⟨fun taken member => ?_, sound.blocksAligned_iff.mpr aligned⟩
    obtain ⟨free, sound, aligned⟩ := passed taken member
    exact sound.blocksAligned_iff.mpr aligned

theorem blocks_aligned_served : ∃ client trace last, Booted bootManager bootMemory 4 6 client ∧
    Run (Step bootManager) client trace last ∧
    trace.map Prod.snd =
      [.alloc 3, .alloc 1, .alloc 1, .free ⟨8, 1⟩, .free ⟨4, 3⟩, .free ⟨9, 1⟩] ∧
    (∀ taken ∈ trace, BlocksAligned bootLayout taken.1) ∧ BlocksAligned bootLayout last := by
  obtain ⟨client, trace, last, booted, run, labels, _⟩ := aligned_run
  exact ⟨client, trace, last, booted, run, labels,
    (blocks_aligned_iff booted run).mpr (by decide)⟩

/-- Two pages from page 1 on are one block, which is handed out at page 1. -/
theorem odd_block_returned :
    Reaches bootManager bootMemory 1 2 [.alloc 2] (¬ BlocksAligned bootLayout ·) := by
  have broken (client : Client BuddyMemory)
      (reached : decide (client.outstanding = [⟨1, 2⟩]) = true) :
      ¬ BlocksAligned bootLayout client := by
    intro aligned
    obtain ⟨order, returns, divides⟩ := aligned.returned ⟨1, 2⟩ (by
      rw [of_decide_eq_true reached]
      exact List.mem_singleton_self _)
    have two : Nat.clog 2 2 = 1 := by decide
    have isOne := (sizeToOrder_returns (by decide)).unique returns
    rw [two] at isOne
    subst isOne
    exact absurd divides (by decide)
  exact script_reaches (steady bootLayout) _ broken
    (show (script _ 60 _ _ _ _ _).toOption.any _ = true by decide +kernel)

end Ucore.Mm.Buddy
