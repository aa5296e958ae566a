import Ucore.Mm.Buddy.Boot

namespace Ucore.Mm.Buddy

open Ucore.Data Ucore.Libs Extent Block

/-! The buddy system and its clients as moves on a set of free blocks. -/

/-- The block that was handed out for an allocation, of the order that `size_to_order` computes. -/
def blockOf (allocation : Allocation) : Block := ⟨allocation.page, Nat.clog 2 allocation.count⟩

abbrev owned (outstanding : List Allocation) : List Extent :=
  outstanding.map fun allocation => (blockOf allocation).extent

/-- What a call does to the free blocks and the outstanding allocations. -/
inductive Move (free : Finset Block) (outstanding : List Allocation) :
    Request → Finset Block → List Allocation → Prop where
  | refuse (count : Nat) : Move free outstanding (.alloc count) free outstanding
  | carve {block : Block} {count : Nat} (member : block ∈ free) (positive : count ≠ 0)
      (reach : Nat.clog 2 count ≤ block.order)
      (least : ∀ other ∈ free, ¬ (Nat.clog 2 count ≤ other.order ∧ other.order < block.order)) :
      Move free outstanding (.alloc count)
        (carve block.start (Nat.clog 2 count) (block.order - Nat.clog 2 count) (free.erase block))
        (⟨block.start, count⟩ :: outstanding)
  | release {allocation : Allocation} (member : allocation ∈ outstanding) :
      Move free outstanding (.free allocation)
        (release (MAX_ORDER - (blockOf allocation).order) free (blockOf allocation))
        (outstanding.erase allocation)

/-- The call frees a block that merges all the way up and finds a partner at the top order too. -/
def CapReached (free : Finset Block) : Request → Prop
  | .alloc _ => False
  | .free allocation =>
      Capped (MAX_ORDER - (blockOf allocation).order) free (blockOf allocation)

structure Consistent (base n : Nat) (free : Finset Block) (outstanding : List Allocation) :
    Prop where
  packs : Packs (extents free + ↑(owned outstanding)) ⟨base, n⟩
  coalesced : Coalesced MAX_ORDER free
  order_le : ∀ block ∈ free, block.order ≤ MAX_ORDER
  positive : ∀ allocation ∈ outstanding, allocation.count ≠ 0
  outstanding_le : ∀ allocation ∈ outstanding, (blockOf allocation).order ≤ MAX_ORDER

variable {base n point : Nat} {free after : Finset Block} {outstanding remaining : List Allocation}
  {allocation other : Allocation} {request : Request}

theorem cover_owned_cons : cover (owned (allocation :: outstanding)) point =
    cover {(blockOf allocation).extent} point + cover (owned outstanding) point := by
  rw [owned, List.map_cons, ← Multiset.cons_coe, cover_cons]

theorem cover_owned_erase (member : allocation ∈ outstanding) :
    cover (owned outstanding) point = cover {(blockOf allocation).extent} point +
      cover (owned (outstanding.erase allocation)) point := by
  have perm := (List.perm_cons_erase member).map fun allocation => (blockOf allocation).extent
  rw [← cover_owned_cons, Multiset.coe_eq_coe.mpr perm]

namespace Consistent

theorem once (consistent : Consistent base n free outstanding) (point : Nat) :
    cover (extents free) point + cover (owned outstanding) point ≤ 1 := by
  have packed := (consistent.packs point).trans cover_singleton_le_one
  rwa [cover_add] at packed

theorem once_free (consistent : Consistent base n free outstanding) (point : Nat) :
    cover (extents free) point ≤ 1 :=
  (Nat.le_add_right _ _).trans (consistent.once point)

theorem apart (consistent : Consistent base n free outstanding)
    (member : allocation ∈ outstanding) : Apart free (blockOf allocation) := by
  intro point
  have all := consistent.once point
  rw [cover_owned_erase member] at all
  omega

theorem sized (consistent : Consistent base n free outstanding)
    (member : allocation ∈ outstanding) :
    Returns (sizeToOrder allocation.count) (blockOf allocation).order :=
  sizeToOrder_returns (count_le (consistent.outstanding_le allocation member))

theorem apart_free {block : Block} (consistent : Consistent base n free outstanding)
    (member : block ∈ free) : Apart (free.erase block) block :=
  apart_erase consistent.once_free member

theorem cover_carved {block : Block} {count : Nat} (consistent : Consistent base n free outstanding)
    (member : block ∈ free) (reach : Nat.clog 2 count ≤ block.order) (point : Nat) :
    cover (extents (Block.carve block.start (Nat.clog 2 count) (block.order - Nat.clog 2 count)
        (free.erase block))) point + cover (owned (⟨block.start, count⟩ :: outstanding)) point =
      cover (extents free) point + cover (owned outstanding) point := by
  have whole : block = ⟨block.start, Nat.clog 2 count + (block.order - Nat.clog 2 count)⟩ := by
    rw [Nat.add_sub_cancel' reach]
  have apart := consistent.apart_free member
  rw [whole] at apart
  have carved := cover_carve apart point
  rw [← whole] at carved
  rw [cover_owned_cons, cover_erase member]
  simp only [blockOf]
  omega

theorem cover_le (consistent : Consistent base n free outstanding)
    (move : Move free outstanding request after remaining) (point : Nat) :
    cover (extents after) point + cover (owned remaining) point ≤
      cover (extents free) point + cover (owned outstanding) point := by
  cases move with
  | refuse => exact le_rfl
  | carve member positive reach least => exact (consistent.cover_carved member reach point).le
  | @release allocation member =>
      have released := cover_release_le (MAX_ORDER - (blockOf allocation).order)
        (consistent.apart member) point
      rw [cover_owned_erase member]
      omega

/-- Nothing gets lost as long as no merge goes beyond the top order. -/
theorem cover_eq (consistent : Consistent base n free outstanding)
    (move : Move free outstanding request after remaining) (uncapped : ¬ CapReached free request)
    (point : Nat) : cover (extents after) point + cover (owned remaining) point =
      cover (extents free) point + cover (owned outstanding) point := by
  cases move with
  | refuse => rfl
  | carve member positive reach least => exact consistent.cover_carved member reach point
  | @release allocation member =>
      have released := cover_release (consistent.apart member) uncapped point
      rw [cover_owned_erase member]
      omega

theorem move (consistent : Consistent base n free outstanding)
    (move : Move free outstanding request after remaining) :
    Consistent base n after remaining := by
  have packs : Packs (extents after + ↑(owned remaining)) ⟨base, n⟩ :=
    consistent.packs.mono fun point => by
      simpa only [cover_add] using consistent.cover_le move point
  cases move with
  | refuse => exact consistent
  | @carve block count member positive reach least =>
      have bound := consistent.order_le block member
      refine ⟨packs, ?_, fun other listed => ?_, fun other listed => ?_, fun other listed => ?_⟩
      · apply (consistent.coalesced.erase block).carve
        intro other listed
        rw [Nat.add_sub_cancel' reach]
        exact least other (Finset.mem_of_mem_erase listed)
      · rcases mem_carve.mp listed with kept | ⟨order, _, below, isHalf⟩
        · exact consistent.order_le other (Finset.mem_of_mem_erase kept)
        · have order_eq := congrArg Block.order isHalf
          simp only at order_eq
          omega
      · rcases List.mem_cons.mp listed with isNew | old
        · cases isNew
          exact positive
        · exact consistent.positive other old
      · rcases List.mem_cons.mp listed with isNew | old
        · cases isNew
          exact reach.trans bound
        · exact consistent.outstanding_le other old
  | @release allocation member =>
      have bound := consistent.outstanding_le allocation member
      have levels : MAX_ORDER = (blockOf allocation).order +
          (MAX_ORDER - (blockOf allocation).order) := (Nat.add_sub_cancel' bound).symm
      refine ⟨packs, ?_, ?_, fun other listed => ?_, fun other listed => ?_⟩
      · have coalesced := consistent.coalesced
        rw [levels] at coalesced
        have released := coalesced.release
        rwa [← levels] at released
      · apply release_forall consistent.order_le bound
        intro block _ below
        rw [← levels] at below
        exact below
      · exact consistent.positive other (List.mem_of_mem_erase listed)
      · exact consistent.outstanding_le other (List.mem_of_mem_erase listed)

end Consistent

/-! The code refines the moves. -/

variable {layout : Layout} {memory : BuddyMemory} {client next last : Client BuddyMemory}
  {trace : List (Client BuddyMemory × Request)}

structure Sound (layout : Layout) (base n : Nat) (client : Client BuddyMemory)
    (free : Finset Block) : Prop where
  holds : Holds layout client.memory free
  consistent : Consistent base n free client.outstanding

theorem Holds.alloc_inv {count : Nat} {answer : Option Nat} {memory' : BuddyMemory}
    (holds : Holds layout memory free) (once : ∀ point, cover (extents free) point ≤ 1)
    (returns : Returns (buddyAllocPages layout memory count) (answer, memory')) :
    (answer = none ∧ memory' = memory) ∨ ∃ block ∈ free, answer = some block.start ∧
      count ≠ 0 ∧ count ≤ memory.nrFree ∧ count ≤ 2 ^ 31 ∧ Nat.clog 2 count ≤ block.order ∧
      (∀ other ∈ free, ¬ (Nat.clog 2 count ≤ other.order ∧ other.order < block.order)) ∧
      Holds layout memory' (Block.carve block.start (Nat.clog 2 count)
        (block.order - Nat.clog 2 count) (free.erase block)) := by
  by_cases refused : count = 0 ∨ count > memory.nrFree
  · cases returns.unique (allocPages_refuses refused)
    exact .inl ⟨rfl, rfl⟩
  · obtain ⟨positive, enough⟩ := not_or.mp refused
    rw [gt_iff_lt, Nat.not_lt] at enough
    by_cases large : 2 ^ 31 < count
    · have width : memory.nrFree < 2 ^ 32 := by
        rw [holds.nrFree]
        exact Nat.mod_lt _ (by decide)
      exact absurd returns
        (allocPages_diverges enough large (enough.trans_lt width)).not_returns
    · have fits := Nat.le_of_not_lt large
      rcases allocPages_cases holds once positive enough fits with
        ⟨missed, _⟩ | ⟨block, member, reach, least, after, granted, carved⟩
      · cases returns.unique missed
        exact .inl ⟨rfl, rfl⟩
      · cases returns.unique granted
        exact .inr ⟨block, member, rfl, positive, enough, fits, reach, least, carved⟩

namespace Sound

theorem free_returns (sound : Sound layout base n client free)
    (member : allocation ∈ client.outstanding) :
    ∃ memory, Returns (buddyFreePages layout client.memory allocation.page allocation.count) memory ∧
      Holds layout memory
        (release (MAX_ORDER - (blockOf allocation).order) free (blockOf allocation)) :=
  freePages_returns sound.holds (sound.consistent.positive allocation member)
    (sound.consistent.outstanding_le allocation member) (sound.consistent.apart member)

/-- Every call of the code is a move. -/
theorem refines (sound : Sound layout base n client free)
    (step : Step (buddyPmmManager layout) client request next) :
    ∃ after, Move free client.outstanding request after next.outstanding ∧
      Holds layout next.memory after := by
  cases step with
  | @allocated memory after outstanding count page result =>
      rcases sound.holds.alloc_inv sound.consistent.once_free result with
        refused | ⟨block, member, granted, positive, _, _, reach, least, carved⟩
      · cases refused.1
      · cases granted
        exact ⟨_, .carve member positive reach least, carved⟩
  | @refused memory after outstanding count result =>
      rcases sound.holds.alloc_inv sound.consistent.once_free result with
        refused | ⟨block, member, granted, _⟩
      · cases refused.2
        exact ⟨free, .refuse count, sound.holds⟩
      · cases granted
  | @freed memory after outstanding allocation member result =>
      obtain ⟨memory, returns, released⟩ := sound.free_returns member
      cases returns.unique result
      exact ⟨_, .release member, released⟩

theorem step (sound : Sound layout base n client free)
    (step : Step (buddyPmmManager layout) client request next) :
    ∃ after, Move free client.outstanding request after next.outstanding ∧
      Sound layout base n next after := by
  obtain ⟨after, move, holds⟩ := sound.refines step
  exact ⟨after, move, holds, sound.consistent.move move⟩

end Sound

theorem booted_cut (booted : Booted (buddyPmmManager layout) memory base n client) :
    0 < n ∧ ∃ free, Sound layout base n client free ∧ Cut base n (base + n) 0 free := by
  obtain ⟨result, none⟩ := booted
  obtain ⟨positive, free, holds, cut⟩ := initMemmap_ok result
  refine ⟨positive, free, ⟨holds, ?_⟩, cut⟩
  rw [none]
  exact ⟨by simpa using cut.tiles.packs, cut.coalesced, cut.order_le, by simp, by simp⟩

/-- Every state that a run passes is sound. -/
theorem sound_run (booted : Booted (buddyPmmManager layout) memory base n client)
    (run : Run (Step (buddyPmmManager layout)) client trace last) :
    (∀ taken ∈ trace, ∃ free, Sound layout base n taken.1 free) ∧
      ∃ free, Sound layout base n last free := by
  obtain ⟨_, free, sound, _⟩ := booted_cut booted
  have preserved {state next : Client BuddyMemory} {request : Request}
      (reached : ∃ free, Sound layout base n state free) (_ : True)
      (step : Step (buddyPmmManager layout) state request next) :
      ∃ free, Sound layout base n next free := by
    obtain ⟨free, sound⟩ := reached
    obtain ⟨after, _, sound⟩ := sound.step step
    exact ⟨after, sound⟩
  exact run.invariant (fun client => ∃ free, Sound layout base n client free) preserved
    ⟨free, sound⟩ (fun _ _ => trivial)

end Ucore.Mm.Buddy
