import Ucore.Mm.BuddyCheck
import Ucore.Mm.BuddyPmm
import Ucore.Mm.PageInit

namespace Ucore.Mm

open Ucore.Data Ucore.Driver Ucore.Libs

/-! `pmm_init` of `kern/mm/pmm.c`, without its output and the variables of the page table.

The descriptors that `page_init` reserves are those that the buddy system goes on with, and in their
words it keeps its list entries.
-/

/-- The `struct Page` at this address. -/
def descriptorOf (memory : BuddyMemory) (p : Nat) : Page where
  ref := int32 (listPrev memory.links p)
  flags := buddyFlags memory p
  property := (memory.blocks p).order

/-- What `page_init` changes of the descriptors are their flags. -/
def storeFlags (memory : BuddyMemory) (descriptors : Nat → Page) : BuddyMemory :=
  { memory with
    links := ⟨fun p => { memory.links.entry p with next := (descriptors p).flags }⟩ }

def initPmmManager (layout : Layout) (memory : BuddyMemory) : BuddyMemory :=
  (buddyPmmManager layout).init memory

/-- A pointer to a descriptor is passed on as its index. -/
def initMemmap (layout : Layout) (memory : BuddyMemory) (result : PageInit) :
    Bounded BuddyMemory :=
  match result.initMemmap with
  | none => fun _ => .ok memory
  | some (base, n) =>
      (buddyPmmManager layout).initMemmap memory ((base - result.pages) / sizeofPage) n

/-- `info` is what `dtb_init` found; `check_alloc_page` runs the check of the manager. -/
def pmmInit (layout : Layout) (kernelEnd : Nat) (info : MemoryInfo) (memory : BuddyMemory) :
    Bounded (PageInit × BuddyMemory) := fun fuel => do
  let memory := initPmmManager layout memory
  let result ← pageInit (descriptorOf memory) kernelEnd info
  let memory ← initMemmap layout (storeFlags memory result.descriptors) result fuel
  let memory ← buddyCheck (buddyPmmManager layout) memory fuel
  .ok (result, memory)

/-- `dtb_init` and `pmm_init`, as `kern_init` calls them. -/
def kernInit (layout : Layout) (blob : KernelMemory) (bootDtb kernelEnd : Nat)
    (memory : BuddyMemory) : Bounded (MemoryInfo × PageInit × BuddyMemory) := fun fuel => do
  let info ← dtbInit blob ⟨0, 0⟩ bootDtb fuel
  let (result, memory) ← pmmInit layout kernelEnd info memory fuel
  .ok (info, result, memory)

end Ucore.Mm
