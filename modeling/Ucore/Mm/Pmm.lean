import Ucore.Data.Bounded
import Ucore.Data.Extent
import Ucore.Data.Run
import Ucore.Mm.Memlayout

namespace Ucore.Mm

open Ucore.Data

/-! `kern/mm/pmm.h`: the interface of a physical memory manager, and its clients.

A `struct Page *` is the index of the descriptor in the array `pages`, and
`NULL` is `none`.
-/

/-- `struct pmm_manager`, over the memory `σ` that the manager works on. -/
structure PmmManager (σ : Type) where
  name : String
  init : σ → σ
  initMemmap : σ → (base n : Nat) → Bounded σ
  allocPages : σ → (n : Nat) → Bounded (Option Nat × σ)
  freePages : σ → (base n : Nat) → Bounded σ
  nrFreePages : σ → Nat

/-- A block that `alloc_pages` returned, with the page count it was asked for. -/
structure Allocation where
  page : Nat
  count : Nat
deriving DecidableEq, Repr

/-- The memory together with the blocks that were handed out and not freed since. -/
structure Client (σ : Type) where
  memory : σ
  outstanding : List Allocation

inductive Request where
  | alloc (count : Nat)
  | free (block : Allocation)
deriving DecidableEq, Repr

variable {σ : Type}

/-- One call of the manager by a client that frees outstanding blocks only. -/
inductive Step (manager : PmmManager σ) : Client σ → Request → Client σ → Prop where
  | allocated {memory after : σ} {outstanding : List Allocation} {count page : Nat}
      (result : Returns (manager.allocPages memory count) (some page, after)) :
      Step manager ⟨memory, outstanding⟩ (.alloc count) ⟨after, ⟨page, count⟩ :: outstanding⟩
  | refused {memory after : σ} {outstanding : List Allocation} {count : Nat}
      (result : Returns (manager.allocPages memory count) (none, after)) :
      Step manager ⟨memory, outstanding⟩ (.alloc count) ⟨after, outstanding⟩
  | freed {memory after : σ} {outstanding : List Allocation} {block : Allocation}
      (member : block ∈ outstanding)
      (result : Returns (manager.freePages memory block.page block.count) after) :
      Step manager ⟨memory, outstanding⟩ (.free block) ⟨after, outstanding.erase block⟩

/-- The state after `init` and one `init_memmap` of the region `[base, base + n)`. -/
def Booted (manager : PmmManager σ) (memory : σ) (base n : Nat) (client : Client σ) : Prop :=
  Returns (manager.initMemmap (manager.init memory) base n) client.memory ∧
    client.outstanding = []

/-- A run that serves these requests, from the boot on, can end in such a state. -/
def Reaches (manager : PmmManager σ) (memory : σ) (base n : Nat) (requests : List Request)
    (goal : Client σ → Prop) : Prop :=
  ∃ client trace last, Booted manager memory base n client ∧
    Run (Step manager) client trace last ∧ trace.map Prod.snd = requests ∧ goal last

/-- The pages an allocation was asked for. -/
def Allocation.extent (block : Allocation) : Extent := ⟨block.page, block.count⟩

end Ucore.Mm
