import Ucore.Mm.Pmm

namespace Ucore.Mm

open Ucore.Data Ucore.Libs

/-! What `kern/mm/default_pmm.c` and `kern/mm/best_fit_pmm.c` have in common.

The two files differ only in the search of `alloc_pages`; every other function
has the same body in both, and this module states it once.
-/

/-- The addresses at which list entries live: `&free_list` and the `page_link` of a descriptor. -/
inductive Link where
  | freeList
  | page (index : Nat)
deriving DecidableEq, Repr

/-- The array `pages` and the static `free_area`. -/
structure FitMemory where
  links : Links Link
  pages : Nat → Page
  nrFree : Nat

def FitMemory.modifyPage (memory : FitMemory) (index : Nat) (change : Page → Page) : FitMemory :=
  { memory with pages := Function.update memory.pages index (change (memory.pages index)) }

def fitInit (memory : FitMemory) : FitMemory :=
  { memory with links := listInit memory.links .freeList, nrFree := 0 }

/-- The loop over the pages of the region in `init_memmap`. -/
def fitClearReserved (memory : FitMemory) (p : Nat) : Nat → Except Stop FitMemory
  | 0 => .ok memory
  | n + 1 =>
      if PageReserved (memory.pages p).flags then
        fitClearReserved (memory.modifyPage p fun _ => { ref := 0, flags := 0, property := 0 }) (p + 1) n
      else
        .error (.panic "assertion failed: PageReserved(p)")

/-- The loop over the pages of the block in `free_pages`. -/
def fitClearFreed (memory : FitMemory) (p : Nat) : Nat → Except Stop FitMemory
  | 0 => .ok memory
  | n + 1 =>
      if !PageReserved (memory.pages p).flags && !PageProperty (memory.pages p).flags then
        fitClearFreed (memory.modifyPage p fun page => { page with ref := 0, flags := 0 }) (p + 1) n
      else
        .error (.panic "assertion failed: !PageReserved(p) && !PageProperty(p)")

/-- `base->property = n; SetPageProperty(base); nr_free += n;` -/
def fitMarkFree (memory : FitMemory) (base n : Nat) : FitMemory :=
  let marked := memory.modifyPage base fun page =>
    { page with property := uint32 n, flags := SetPageProperty page.flags }
  { marked with nrFree := uint32 (marked.nrFree + n) }

/-- The insertion loop.  It does not stop after inserting behind the last entry. -/
def fitInsertLoop (base : Nat) : Nat → Links Link → Link → Except Stop (Links Link)
  | 0, _, _ => .error .outOfFuel
  | fuel + 1, links, le =>
      let le := listNext links le
      match le with
      | .freeList => .ok links
      | .page page =>
          if base < page then
            .ok (listAddBefore links le (.page base))
          else if listNext links le = .freeList then
            fitInsertLoop base fuel (listAdd links le (.page base)) le
          else
            fitInsertLoop base fuel links le

def fitInsert (memory : FitMemory) (base : Nat) : Bounded FitMemory := fun fuel =>
  if listEmpty memory.links .freeList then
    .ok { memory with links := listAdd memory.links .freeList (.page base) }
  else do
    let links ← fitInsertLoop base fuel memory.links .freeList
    .ok { memory with links }

def fitInitMemmap (memory : FitMemory) (base n : Nat) : Bounded FitMemory := fun fuel =>
  if n = 0 then
    .error (.panic "assertion failed: n > 0")
  else do
    let cleared ← fitClearReserved memory base n
    fitInsert (fitMarkFree cleared base n) base fuel

/-- What `alloc_pages` does with the block it found. -/
def fitTake (memory : FitMemory) (page n : Nat) : FitMemory :=
  let prev := listPrev memory.links (.page page)
  let unlinked := { memory with links := listDel memory.links (.page page) }
  let split :=
    if n < (unlinked.pages page).property then
      let rest := unlinked.modifyPage (page + n) fun p =>
        { p with
          property := uint32 ((unlinked.pages page).property - n)
          flags := SetPageProperty p.flags }
      { rest with links := listAdd rest.links prev (.page (page + n)) }
    else
      unlinked
  { split with nrFree := uint32Sub split.nrFree n }.modifyPage page fun p =>
    { p with flags := ClearPageProperty p.flags }

def fitAllocPages (search : FitMemory → Nat → Bounded (Option Nat)) (memory : FitMemory)
    (n : Nat) : Bounded (Option Nat × FitMemory) := fun fuel =>
  if n = 0 then
    .error (.panic "assertion failed: n > 0")
  else if n > memory.nrFree then
    .ok (none, memory)
  else do
    match ← search memory n fuel with
    | none => .ok (none, memory)
    | some page => .ok (some page, fitTake memory page n)

/-- `p->property += q->property; ClearPageProperty(q); list_del(&(q->page_link));` -/
def fitJoin (memory : FitMemory) (p q : Nat) : FitMemory :=
  let grown := memory.modifyPage p fun page =>
    { page with property := uint32 (page.property + (memory.pages q).property) }
  let cleared := grown.modifyPage q fun page => { page with flags := ClearPageProperty page.flags }
  { cleared with links := listDel cleared.links (.page q) }

/-- The merge with the block before; the second component is the new `base`. -/
def fitMergePrev (memory : FitMemory) (base : Nat) : FitMemory × Nat :=
  match listPrev memory.links (.page base) with
  | .freeList => (memory, base)
  | .page p =>
      if p + (memory.pages p).property = base then (fitJoin memory p base, p) else (memory, base)

/-- The merge with the block after. -/
def fitMergeNext (memory : FitMemory) (base : Nat) : FitMemory :=
  match listNext memory.links (.page base) with
  | .freeList => memory
  | .page p => if base + (memory.pages base).property = p then fitJoin memory base p else memory

def fitFreePages (memory : FitMemory) (base n : Nat) : Bounded FitMemory := fun fuel =>
  if n = 0 then
    .error (.panic "assertion failed: n > 0")
  else do
    let cleared ← fitClearFreed memory base n
    let inserted ← fitInsert (fitMarkFree cleared base n) base fuel
    let (merged, base) := fitMergePrev inserted base
    .ok (fitMergeNext merged base)

def fitNrFreePages (memory : FitMemory) : Nat := memory.nrFree

end Ucore.Mm
