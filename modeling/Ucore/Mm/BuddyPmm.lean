import Ucore.Mm.Pmm

namespace Ucore.Mm

open Ucore.Data Ucore.Libs

/-! `kern/mm/buddy_pmm.c`: the buddy system.

The descriptor of a free block is stored over the `struct Page` of its first
page, so the two share their words (offsets in bytes):

    struct Page      buddy_block_t
     0  ref           link.prev
     8  flags         link.next
    16  property      order
    24  page_link     base

List entries are therefore kept under their numeric addresses.
-/

def MAX_ORDER : Nat := 10

/-- The addresses of the arrays `free_lists` and `pages`; the kernel image ends before `pages`. -/
structure Layout where
  freeLists : Nat
  pages : Nat
  ordered : freeLists + 16 * (MAX_ORDER + 1) ≤ pages

/-- `&free_lists[order]`. -/
def Layout.freeList (layout : Layout) (order : Nat) : Nat := layout.freeLists + 16 * order

/-- The address of a page descriptor. -/
def Layout.page (layout : Layout) (index : Nat) : Nat := layout.pages + 40 * index

/-- `buddy_block_t` without its `link`. -/
structure BuddyBlock where
  order : Nat
  base : Nat
deriving DecidableEq, Repr

structure BuddyMemory where
  links : Links Nat
  blocks : Nat → BuddyBlock
  nrFree : Nat
  maxOrderInited : Nat

/-- `p->flags`. -/
def buddyFlags (memory : BuddyMemory) (p : Nat) : Nat := listNext memory.links p

def setBuddyFlags (memory : BuddyMemory) (p flags : Nat) : BuddyMemory :=
  { memory with links := setNext memory.links p flags }

/-- `p->flags = p->property = 0; set_page_ref(p, 0);` where `ref` is the lower half of its word. -/
def buddyClearPage (memory : BuddyMemory) (p : Nat) : BuddyMemory :=
  let blocks := Function.update memory.blocks p { memory.blocks p with order := 0 }
  let links := setNext memory.links p 0
  { memory with blocks, links := setPrev links p (listPrev links p / 2 ^ 32 * 2 ^ 32) }

def buddyInit (layout : Layout) (memory : BuddyMemory) : BuddyMemory where
  links := (List.range (MAX_ORDER + 1)).foldl
    (fun links i => listInit links (layout.freeList i)) memory.links
  blocks := memory.blocks
  nrFree := 0
  maxOrderInited := 0

def sizeToOrderLoop (n : Nat) : Nat → (o s : Nat) → Except Stop Nat
  | 0, _, _ => .error .outOfFuel
  | fuel + 1, o, s =>
      if s < n then sizeToOrderLoop n fuel (uint32 (o + 1)) (uint32 (s <<< 1)) else .ok o

/-- The argument is converted to `unsigned int`. -/
def sizeToOrder (n : Nat) : Bounded Nat := fun fuel =>
  sizeToOrderLoop (uint32 n) fuel 0 1

def buddyAddFree (layout : Layout) (memory : BuddyMemory) (base order : Nat) : BuddyMemory where
  blocks := Function.update memory.blocks (layout.page base) { order, base }
  links := listAdd memory.links (layout.freeList order) (layout.page base)
  nrFree := uint32 (memory.nrFree + 2 ^ order)
  maxOrderInited := if order > memory.maxOrderInited then order else memory.maxOrderInited

def buddyRemoveFree (memory : BuddyMemory) (le : Nat) : Nat × BuddyMemory :=
  let b := memory.blocks le
  let links := listDel memory.links le
  (b.base, { memory with links, nrFree := uint32Sub memory.nrFree (2 ^ b.order) })

/-- The loop over the pages of the region. -/
def buddyClearReserved (layout : Layout) (memory : BuddyMemory) (p : Nat) :
    Nat → Except Stop BuddyMemory
  | 0 => .ok memory
  | n + 1 =>
      if PageReserved (buddyFlags memory (layout.page p)) then
        buddyClearReserved layout (buddyClearPage memory (layout.page p)) (p + 1) n
      else
        .error (.panic "assertion failed: PageReserved(p)")

/-- `while ((1UL << (o + 1)) <= remain) o++;` -/
def buddyLargestOrder (remain : Nat) : Nat → (o : Nat) → Except Stop Nat
  | 0, _ => .error .outOfFuel
  | fuel + 1, o => if 2 ^ (o + 1) ≤ remain then buddyLargestOrder remain fuel (o + 1) else .ok o

/-- The loop that adds several blocks of the top order. -/
def buddyAddBlocks (layout : Layout) :
    (blocks : Nat) → BuddyMemory → (cur remain : Nat) → BuddyMemory × Nat × Nat
  | 0, memory, cur, remain => (memory, cur, remain)
  | blocks + 1, memory, cur, remain =>
      buddyAddBlocks layout blocks (buddyAddFree layout memory cur MAX_ORDER)
        (cur + 2 ^ MAX_ORDER) (remain - 2 ^ MAX_ORDER)

/-- The loop that cuts the region into blocks. -/
def buddyCut (layout : Layout) : Nat → BuddyMemory → (cur remain : Nat) → Except Stop BuddyMemory
  | 0, _, _, _ => .error .outOfFuel
  | fuel + 1, memory, cur, remain =>
      if remain > 0 then do
        let o ← buddyLargestOrder remain fuel 0
        if o > MAX_ORDER then
          -- the count of blocks is an `unsigned int`
          let blocks := uint32 (2 ^ o / 2 ^ MAX_ORDER)
          let (memory, cur, remain) := buddyAddBlocks layout blocks memory cur remain
          buddyCut layout fuel memory cur remain
        else
          buddyCut layout fuel (buddyAddFree layout memory cur o) (cur + 2 ^ o) (remain - 2 ^ o)
      else
        .ok memory

def buddyInitMemmap (layout : Layout) (memory : BuddyMemory) (base n : Nat) :
    Bounded BuddyMemory := fun fuel =>
  if n = 0 then
    .error (.panic "assertion failed: n > 0")
  else do
    let cleared ← buddyClearReserved layout memory base n
    buddyCut layout fuel cleared base n

/-- The first order from `o` on whose list is not empty. -/
def buddyFindOrder (layout : Layout) (links : Links Nat) (o : Nat) : (rounds : Nat) → Nat
  | 0 => o
  | rounds + 1 =>
      if !listEmpty links (layout.freeList o) then o
      else buddyFindOrder layout links (o + 1) rounds

/-- `while (o > need_order)`: free the second half of the block. -/
def buddySplit (layout : Layout) (blk needOrder : Nat) : (o : Nat) → BuddyMemory → BuddyMemory
  | 0, memory => memory
  | o + 1, memory =>
      if o + 1 > needOrder then
        buddySplit layout blk needOrder o (buddyAddFree layout memory (blk + 2 ^ o) o)
      else
        memory

def buddyAllocPages (layout : Layout) (memory : BuddyMemory) (n : Nat) :
    Bounded (Option Nat × BuddyMemory) := fun fuel =>
  if n = 0 ∨ n > memory.nrFree then
    .ok (none, memory)
  else do
    let needOrder ← sizeToOrder n fuel
    let o := buddyFindOrder layout memory.links needOrder (MAX_ORDER + 1 - needOrder)
    if o > MAX_ORDER then
      .ok (none, memory)
    else
      let le := listNext memory.links (layout.freeList o)
      let (blk, memory) := buddyRemoveFree memory le
      let memory := buddySplit layout blk needOrder o memory
      let flags := ClearPageProperty (buddyFlags memory (layout.page blk))
      .ok (some blk, setBuddyFlags memory (layout.page blk) flags)

/-- The search of `buddy_find_and_remove` for the block with this base. -/
def buddyFindLoop (layout : Layout) (memory : BuddyMemory) (buddyAddr order : Nat) :
    Nat → (le : Nat) → Except Stop (Option Nat × BuddyMemory)
  | 0, _ => .error .outOfFuel
  | fuel + 1, le =>
      let le := listNext memory.links le
      if le ≠ layout.freeList order then
        if (memory.blocks le).base = buddyAddr then
          .ok (some buddyAddr, (buddyRemoveFree memory le).2)
        else
          buddyFindLoop layout memory buddyAddr order fuel le
      else
        .ok (none, memory)

def buddyFindAndRemove (layout : Layout) (memory : BuddyMemory) (base order : Nat) :
    Bounded (Option Nat × BuddyMemory) := fun fuel =>
  buddyFindLoop layout memory (base ^^^ 2 ^ order) order fuel (layout.freeList order)

/-- The loop of `buddy_free_pages`. -/
def buddyFreeLoop (layout : Layout) : Nat → BuddyMemory → (blk o : Nat) → Except Stop BuddyMemory
  | 0, _, _, _ => .error .outOfFuel
  | fuel + 1, memory, blk, o =>
      if o ≤ MAX_ORDER then do
        match ← buddyFindAndRemove layout memory blk o fuel with
        | (none, memory) => .ok (buddyAddFree layout memory blk o)
        | (some buddy, memory) =>
            let blk := if blk > buddy then buddy else blk
            if o + 1 > MAX_ORDER then
              .ok (buddyAddFree layout memory blk MAX_ORDER)
            else
              buddyFreeLoop layout fuel memory blk (o + 1)
      else
        .ok memory

def buddyFreePages (layout : Layout) (memory : BuddyMemory) (base n : Nat) :
    Bounded BuddyMemory := fun fuel =>
  if n = 0 then
    .error (.panic "assertion failed: n > 0")
  else do
    let o ← sizeToOrder n fuel
    buddyFreeLoop layout fuel memory base o

def buddyNrFreePages (memory : BuddyMemory) : Nat := memory.nrFree

def buddyPmmManager (layout : Layout) : PmmManager BuddyMemory where
  name := "buddy_pmm_manager"
  init := buddyInit layout
  initMemmap := buddyInitMemmap layout
  allocPages := buddyAllocPages layout
  freePages := buddyFreePages layout
  nrFreePages := buddyNrFreePages

end Ucore.Mm
