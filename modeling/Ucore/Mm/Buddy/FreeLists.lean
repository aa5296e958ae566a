import Ucore.Mm.Buddy.Invariant

namespace Ucore.Mm.Buddy

open Ucore.Data Ucore.Libs Extent Block

/-! What can be read off the free lists. -/

/-- `free_lists[order]` holds the blocks that start at these pages. -/
structure FreeListOf (layout : Layout) (memory : BuddyMemory) (order : Nat) (starts : List Nat) :
    Prop where
  circuit : Circuit (listNext memory.links) (layout.freeList order) (starts.map layout.page)
  stored : ∀ start ∈ starts, memory.blocks (layout.page start) = ⟨order, start⟩

def Listed (layout : Layout) (memory : BuddyMemory) (block : Block) : Prop :=
  block.order ≤ MAX_ORDER ∧
    ∃ starts, FreeListOf layout memory block.order starts ∧ block.start ∈ starts

/-- The two memories have the same blocks on each list, in whatever order. -/
def SameBlocks (layout : Layout) (memory other : BuddyMemory) : Prop :=
  ∀ order ≤ MAX_ORDER, ∃ starts others, FreeListOf layout memory order starts ∧
    FreeListOf layout other order others ∧ starts.Perm others

/-- The freed block, and all that it is merged into, finds its partner on the list of each order
from its own up to `MAX_ORDER`. -/
def MergesAtTop (layout : Layout) (client : Client BuddyMemory) : Request → Prop
  | .alloc _ => False
  | .free allocation => ∀ level ≤ MAX_ORDER - (blockOf allocation).order,
      Listed layout client.memory (merge^[level] (blockOf allocation)).partner

variable {layout : Layout} {memory other : BuddyMemory} {client : Client BuddyMemory}
  {free others : Finset Block} {block : Block} {base n order : Nat} {starts again : List Nat}
  {request : Request}

theorem FreeListOf.unique (first : FreeListOf layout memory order starts)
    (second : FreeListOf layout memory order again) : starts = again :=
  List.map_injective_iff.mpr (page_injective layout) (first.circuit.unique second.circuit)

namespace Holds

theorem freeLists (holds : Holds layout memory free) :
    ∃ lists : Nat → List Nat, ∀ order ≤ MAX_ORDER,
      FreeListOf layout memory order (lists order) ∧ (lists order).Nodup ∧
        ∀ start, start ∈ lists order ↔ ⟨start, order⟩ ∈ free := by
  obtain ⟨lists, lists_, stored⟩ := holds.lists
  refine ⟨lists, fun order bound => ?_⟩
  have isList := lists_.isList order bound
  refine ⟨⟨isList.circuit, lists_.block order bound⟩, isList.nodup.of_cons.of_map, fun start => ?_⟩
  rw [stored]
  exact (and_iff_right bound).symm

theorem listed_iff (holds : Holds layout memory free) :
    Listed layout memory block ↔ block ∈ free := by
  obtain ⟨lists, shown⟩ := holds.freeLists
  constructor
  · intro listed
    obtain ⟨bound, starts, freeList, member⟩ := listed
    obtain ⟨same, _, members⟩ := shown block.order bound
    rw [freeList.unique same] at member
    exact (members block.start).mp member
  · intro member
    have bound := holds.order_le member
    obtain ⟨freeList, _, members⟩ := shown block.order bound
    exact ⟨bound, _, freeList, (members block.start).mpr member⟩

theorem unique (first : Holds layout memory free) (second : Holds layout memory others) :
    free = others := by
  ext block
  rw [← first.listed_iff, second.listed_iff]

theorem sameBlocks_iff (holds : Holds layout memory free) (holdsOther : Holds layout other others) :
    SameBlocks layout memory other ↔ free = others := by
  obtain ⟨lists, shown⟩ := holds.freeLists
  obtain ⟨listsOther, shownOther⟩ := holdsOther.freeLists
  constructor
  · intro same
    have agree : ∀ block, block.order ≤ MAX_ORDER → (block ∈ free ↔ block ∈ others) := by
      intro block bound
      obtain ⟨starts, startsOther, freeList, freeListOther, perm⟩ := same block.order bound
      obtain ⟨here, _, members⟩ := shown block.order bound
      obtain ⟨there, _, membersOther⟩ := shownOther block.order bound
      rw [freeList.unique here, freeListOther.unique there] at perm
      exact (members block.start).symm.trans (perm.mem_iff.trans (membersOther block.start))
    ext block
    constructor
    · intro member
      exact (agree block (holds.order_le member)).mp member
    · intro member
      exact (agree block (holdsOther.order_le member)).mpr member
  · intro same order bound
    subst same
    obtain ⟨freeList, distinct, members⟩ := shown order bound
    obtain ⟨freeListOther, distinctOther, membersOther⟩ := shownOther order bound
    refine ⟨_, _, freeList, freeListOther, (List.perm_ext_iff_of_nodup distinct distinctOther).mpr ?_⟩
    intro start
    rw [members, membersOther]

theorem mergesAtTop_iff (holds : Holds layout client.memory free) :
    MergesAtTop layout client request ↔ CapReached free request := by
  cases request with
  | alloc => rfl
  | free allocation => simp only [MergesAtTop, CapReached, Capped, holds.listed_iff]

end Holds

end Ucore.Mm.Buddy
