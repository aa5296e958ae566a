import Ucore.Mm.BestFitPmm
import Ucore.Mm.BuddyCheck
import Ucore.Mm.DefaultPmm

namespace Ucore.Mm

open Ucore.Data Ucore.Libs

/-! `default_check` of `kern/mm/default_pmm.c` and `best_fit_check` of `kern/mm/best_fit_pmm.c`,
which share `basic_check` and both traversals of the list.  The points that are counted under
`ucore_test` are left out.
-/

section Calls

variable {σ : Type} (manager : PmmManager σ) (n : Nat)

/-- `assert((page = alloc_pages(n)) != NULL)`. -/
def allocSome (text : String) (memory : σ) : Bounded (Nat × σ) := fun fuel => do
  match ← manager.allocPages memory n fuel with
  | (some page, memory) => .ok (page, memory)
  | (none, _) => .error (.panic ("assertion failed: " ++ text))

/-- `assert(alloc_pages(n) == NULL)`. -/
def allocNone (text : String) (memory : σ) : Bounded σ := fun fuel => do
  match ← manager.allocPages memory n fuel with
  | (some _, _) => .error (.panic ("assertion failed: " ++ text))
  | (none, memory) => .ok memory

/-- `assert((p = alloc_pages(n)) == page)`. -/
def allocAt (page : Nat) (text : String) (memory : σ) : Bounded σ := fun fuel => do
  let (p, memory) ← manager.allocPages memory n fuel
  assert (p = some page) text
  .ok memory

end Calls

/-- `PageProperty(p) && p->property == n`. -/
def headsBlock (memory : FitMemory) (p n : Nat) : Bool :=
  PageProperty (memory.pages p).flags && (memory.pages p).property == n

/-- `list_init(&free_list)`. -/
def FitMemory.initList (memory : FitMemory) : FitMemory :=
  { memory with links := listInit memory.links .freeList }

/-- `free_list = free_list_store; nr_free = nr_free_store;` -/
def FitMemory.restore (memory : FitMemory) (freeListStore : ListEntry Link) (nrFreeStore : Nat) :
    FitMemory :=
  { memory with
    links := ⟨Function.update memory.links.entry .freeList freeListStore⟩
    nrFree := nrFreeStore }

section Checks

variable (manager : PmmManager FitMemory)

/-- What `basic_check` does while `free_list` is set aside; the last pages `p`, `p1` and `p2`. -/
def basicCheckEmptied (p0 p1 p2 : Nat) (memory : FitMemory) :
    Bounded ((Nat × Nat × Nat) × FitMemory) := fun fuel => do
  let memory ← allocNone manager 1 "alloc_page() == NULL" memory fuel
  let memory ← manager.freePages memory p0 1 fuel
  let memory ← manager.freePages memory p1 1 fuel
  let memory ← manager.freePages memory p2 1 fuel
  assert (memory.nrFree = 3) "nr_free == 3"
  let (p0, memory) ← allocSome manager 1 "(p0 = alloc_page()) != NULL" memory fuel
  let (p1, memory) ← allocSome manager 1 "(p1 = alloc_page()) != NULL" memory fuel
  let (p2, memory) ← allocSome manager 1 "(p2 = alloc_page()) != NULL" memory fuel
  let memory ← allocNone manager 1 "alloc_page() == NULL" memory fuel
  let memory ← manager.freePages memory p0 1 fuel
  assert (!listEmpty memory.links .freeList) "!list_empty(&free_list)"
  let memory ← allocAt manager 1 p0 "(p = alloc_page()) == p0" memory fuel
  let memory ← allocNone manager 1 "alloc_page() == NULL" memory fuel
  assert (memory.nrFree = 0) "nr_free == 0"
  .ok ((p0, p1, p2), memory)

def basicCheck (npage : Nat) (memory : FitMemory) : Bounded FitMemory := fun fuel => do
  let (p0, memory) ← allocSome manager 1 "(p0 = alloc_page()) != NULL" memory fuel
  let (p1, memory) ← allocSome manager 1 "(p1 = alloc_page()) != NULL" memory fuel
  let (p2, memory) ← allocSome manager 1 "(p2 = alloc_page()) != NULL" memory fuel
  assert (p0 ≠ p1 ∧ p0 ≠ p2 ∧ p1 ≠ p2) "p0 != p1 && p0 != p2 && p1 != p2"
  assert ((memory.pages p0).ref = 0 ∧ (memory.pages p1).ref = 0 ∧ (memory.pages p2).ref = 0)
    "page_ref(p0) == 0 && page_ref(p1) == 0 && page_ref(p2) == 0"
  assert (page2pa p0 < uint64 (npage * PGSIZE)) "page2pa(p0) < npage * PGSIZE"
  assert (page2pa p1 < uint64 (npage * PGSIZE)) "page2pa(p1) < npage * PGSIZE"
  assert (page2pa p2 < uint64 (npage * PGSIZE)) "page2pa(p2) < npage * PGSIZE"
  let freeListStore := memory.links.entry .freeList
  let memory := memory.initList
  assert (listEmpty memory.links .freeList) "list_empty(&free_list)"
  let nrFreeStore := memory.nrFree
  let ((p, p1, p2), memory) ← basicCheckEmptied manager p0 p1 p2 { memory with nrFree := 0 } fuel
  let memory := memory.restore freeListStore nrFreeStore
  let memory ← manager.freePages memory p 1 fuel
  let memory ← manager.freePages memory p1 1 fuel
  manager.freePages memory p2 1 fuel

/-- The first traversal.  Both counters are an `int`, here as its bits. -/
def countBlocks (memory : FitMemory) : Nat → Link → (count total : Nat) → Except Stop (Nat × Nat)
  | 0, _, _, _ => .error .outOfFuel
  | fuel + 1, le, count, total =>
      match listNext memory.links le with
      | .freeList => .ok (count, total)
      | .page p => do
          assert (PageProperty (memory.pages p).flags) "PageProperty(p)"
          countBlocks memory fuel (.page p) (uint32 (count + 1))
            (uint32 (total + (memory.pages p).property))

/-- The second traversal. -/
def uncountBlocks (memory : FitMemory) : Nat → Link → (count total : Nat) → Except Stop (Nat × Nat)
  | 0, _, _, _ => .error .outOfFuel
  | fuel + 1, le, count, total =>
      match listNext memory.links le with
      | .freeList => .ok (count, total)
      | .page p =>
          uncountBlocks memory fuel (.page p) (uint32Sub count 1)
            (uint32Sub total (memory.pages p).property)

/-- The check of a manager; `emptied` is its part on the block at `p0`, while `free_list` is set
aside and `nr_free` is zero. -/
def fitCheck (emptied : Nat → FitMemory → Bounded (Nat × FitMemory)) (npage : Nat)
    (memory : FitMemory) : Bounded FitMemory := fun fuel => do
  let (count, total) ← countBlocks memory fuel .freeList 0 0
  assert (uint64OfInt (int32 total) = manager.nrFreePages memory) "total == nr_free_pages()"
  let memory ← basicCheck manager npage memory fuel
  let (p0, memory) ← allocSome manager 5 "p0 != NULL" memory fuel
  assert (!PageProperty (memory.pages p0).flags) "!PageProperty(p0)"
  let freeListStore := memory.links.entry .freeList
  let memory := memory.initList
  assert (listEmpty memory.links .freeList) "list_empty(&free_list)"
  let memory ← allocNone manager 1 "alloc_page() == NULL" memory fuel
  let nrFreeStore := memory.nrFree
  let (p0, memory) ← emptied p0 { memory with nrFree := 0 } fuel
  let memory := memory.restore freeListStore nrFreeStore
  let memory ← manager.freePages memory p0 5 fuel
  let (count, total) ← uncountBlocks memory fuel .freeList count total
  assert (count = 0) "count == 0"
  assert (total = 0) "total == 0"
  .ok memory

def defaultCheckEmptied (p0 : Nat) (memory : FitMemory) : Bounded (Nat × FitMemory) := fun fuel => do
  let memory ← manager.freePages memory (p0 + 2) 3 fuel
  let memory ← allocNone manager 4 "alloc_pages(4) == NULL" memory fuel
  assert (headsBlock memory (p0 + 2) 3) "PageProperty(p0 + 2) && p0[2].property == 3"
  let (p1, memory) ← allocSome manager 3 "(p1 = alloc_pages(3)) != NULL" memory fuel
  let memory ← allocNone manager 1 "alloc_page() == NULL" memory fuel
  assert (p0 + 2 = p1) "p0 + 2 == p1"
  let p2 := p0 + 1
  let memory ← manager.freePages memory p0 1 fuel
  let memory ← manager.freePages memory p1 3 fuel
  assert (headsBlock memory p0 1) "PageProperty(p0) && p0->property == 1"
  assert (headsBlock memory p1 3) "PageProperty(p1) && p1->property == 3"
  let memory ← allocAt manager 1 (p2 - 1) "(p0 = alloc_page()) == p2 - 1" memory fuel
  let memory ← manager.freePages memory (p2 - 1) 1 fuel
  let memory ← allocAt manager 2 (p2 + 1) "(p0 = alloc_pages(2)) == p2 + 1" memory fuel
  let memory ← manager.freePages memory (p2 + 1) 2 fuel
  let memory ← manager.freePages memory p2 1 fuel
  let (p0, memory) ← allocSome manager 5 "(p0 = alloc_pages(5)) != NULL" memory fuel
  let memory ← allocNone manager 1 "alloc_page() == NULL" memory fuel
  assert (memory.nrFree = 0) "nr_free == 0"
  .ok (p0, memory)

def bestFitCheckEmptied (p0 : Nat) (memory : FitMemory) : Bounded (Nat × FitMemory) := fun fuel => do
  let memory ← manager.freePages memory (p0 + 1) 2 fuel
  let memory ← manager.freePages memory (p0 + 4) 1 fuel
  let memory ← allocNone manager 4 "alloc_pages(4) == NULL" memory fuel
  assert (headsBlock memory (p0 + 1) 2) "PageProperty(p0 + 1) && p0[1].property == 2"
  let (p1, memory) ← allocSome manager 1 "(p1 = alloc_pages(1)) != NULL" memory fuel
  let (_, memory) ← allocSome manager 2 "alloc_pages(2) != NULL" memory fuel
  assert (p0 + 4 = p1) "p0 + 4 == p1"
  let memory ← manager.freePages memory p0 5 fuel
  let (p0, memory) ← allocSome manager 5 "(p0 = alloc_pages(5)) != NULL" memory fuel
  let memory ← allocNone manager 1 "alloc_page() == NULL" memory fuel
  assert (memory.nrFree = 0) "nr_free == 0"
  .ok (p0, memory)

end Checks

/-- `npage` is the number of page frames that `page_init` found. -/
def defaultCheck : (npage : Nat) → FitMemory → Bounded FitMemory :=
  fitCheck defaultPmmManager (defaultCheckEmptied defaultPmmManager)

def bestFitCheck : (npage : Nat) → FitMemory → Bounded FitMemory :=
  fitCheck bestFitPmmManager (bestFitCheckEmptied bestFitPmmManager)

end Ucore.Mm
