import Ucore.Driver.Dtb
import Ucore.Mm.Memlayout

namespace Ucore.Mm

open Ucore.Data Ucore.Driver

/-! `page_init` of `kern/mm/pmm.c`, on numeric addresses. -/

def KERNBASE : Nat := 0xFFFFFFFFC0200000

def KMEMSIZE : Nat := 0x7E00000

def KERNTOP : Nat := KERNBASE + KMEMSIZE

/-- `sizeof(struct Page)`. -/
def sizeofPage : Nat := 40

def ROUNDDOWN (a n : Nat) : Nat := a - a % n

def ROUNDUP (a n : Nat) : Nat := ROUNDDOWN (uint64 (a + n - 1)) n

def PPN (la : Nat) : Nat := la >>> PGSHIFT

def PADDR (kva : Nat) : Except Stop Nat :=
  if kva < KERNBASE then
    .error (.panic "PADDR called with invalid kva")
  else
    .ok (uint64Sub kva va_pa_offset)

/-- `pages + index`. -/
def pageAt (pages index : Nat) : Nat := uint64 (pages + sizeofPage * index)

def pa2page (pages npage pa : Nat) : Except Stop Nat :=
  if PPN pa ≥ npage then
    .error (.panic "pa2page called with invalid pa")
  else
    .ok (pageAt pages (uint64Sub (PPN pa) nbase))

/-- The loop of `page_init`; the flags are the second word of a descriptor. -/
def reservePages (pages : Nat) (i : Nat) (descriptors : Nat → Page) :
    (rounds : Nat) → Except Stop (Nat → Page)
  | 0 => .ok descriptors
  | rounds + 1 =>
      let p := pageAt pages i
      if uint64 (p + 8) < mappedBase then
        .error (.panic "store page fault")
      else
        reservePages pages (i + 1)
          (Function.update descriptors p
            { descriptors p with flags := SetPageReserved (descriptors p).flags }) rounds

/-- The variables that `page_init` sets, and the arguments of its call of `init_memmap`. -/
structure PageInit where
  npage : Nat
  pages : Nat
  descriptors : Nat → Page
  initMemmap : Option (Nat × Nat)

/-- The number of frames below `mem_end`, where `maxpa` is clamped to `KERNTOP`. -/
def npageOf (memEnd : Nat) : Nat :=
  let maxpa := if memEnd > KERNTOP then KERNTOP else memEnd
  maxpa / PGSIZE

/-- The end of `page_init`, from the rounding of `freemem` on. -/
def handOver (npage pages : Nat) (descriptors : Nat → Page) (freemem memEnd : Nat) :
    Except Stop PageInit :=
  let memBegin := ROUNDUP freemem PGSIZE
  let memEnd := ROUNDDOWN memEnd PGSIZE
  if freemem < memEnd then do
    let base ← pa2page pages npage memBegin
    .ok ⟨npage, pages, descriptors, some (base, uint64Sub memEnd memBegin / PGSIZE)⟩
  else
    .ok ⟨npage, pages, descriptors, none⟩

/-- `kernelEnd` is the address of `end`. -/
def pageInit (descriptors : Nat → Page) (kernelEnd : Nat) (info : MemoryInfo) :
    Except Stop PageInit :=
  let memBegin := info.memoryBase
  let memSize := info.memorySize
  if memSize = 0 then
    .error (.panic "DTB memory info not available")
  else do
    let memEnd := uint64 (memBegin + memSize)
    let npage := npageOf memEnd
    let pages := ROUNDUP kernelEnd PGSIZE
    let descriptors ← reservePages pages 0 descriptors (uint64Sub npage nbase)
    let freemem ← PADDR (uint64 (pages + sizeofPage * uint64Sub npage nbase))
    handOver npage pages descriptors freemem memEnd

end Ucore.Mm
