import Ucore.Mm.Mmu
import Ucore.Mm.Pmm

namespace Ucore.Mm

open Ucore.Data

/-! `buddy_check` of `kern/mm/buddy_pmm.c`, a client of `alloc_pages`, `free_pages` and
`nr_free_pages`.  Its output is left out, and so are the points that it counts under `ucore_test`.
-/

variable {σ : Type} (manager : PmmManager σ)

def assert (condition : Bool) (text : String) : Except Stop Unit :=
  if condition then .ok () else .error (.panic ("assertion failed: " ++ text))

theorem asserted {condition : Bool} {text : String} (holds : condition = true) :
    Returns (fun _ => assert condition text) () :=
  .of_constant fun _ => if_pos holds

/-- Tests 1 and 2. -/
def testSinglePages (initialFree : Nat) (memory : σ) : Bounded σ := fun fuel => do
  let (a, memory) ← manager.allocPages memory 1 fuel
  let (b, memory) ← manager.allocPages memory 1 fuel
  let (c, memory) ← manager.allocPages memory 1 fuel
  match a, b, c with
  | some a, some b, some c => do
      assert (manager.nrFreePages memory = uint64Sub initialFree 3)
        "nr_free_pages() == initial_free - 3"
      let memory ← manager.freePages memory b 1 fuel
      let memory ← manager.freePages memory a 1 fuel
      let memory ← manager.freePages memory c 1 fuel
      assert (manager.nrFreePages memory = initialFree) "nr_free_pages() == initial_free"
      .ok memory
  | _, _, _ => .error (.panic "assertion failed: a && b && c")

/-- Test 3. -/
def testMultiPages (initialFree : Nat) (memory : σ) : Bounded σ := fun fuel => do
  let (a, memory) ← manager.allocPages memory 2 fuel
  let (b, memory) ← manager.allocPages memory 4 fuel
  match a, b with
  | some a, some b => do
      assert (manager.nrFreePages memory = uint64Sub initialFree 6)
        "nr_free_pages() == initial_free - 6"
      let memory ← manager.freePages memory a 2 fuel
      let memory ← manager.freePages memory b 4 fuel
      assert (manager.nrFreePages memory = initialFree) "nr_free_pages() == initial_free"
      .ok memory
  | _, _ => .error (.panic "assertion failed: a && b")

/-- Test 4. -/
def testRoundedUp (initialFree : Nat) (memory : σ) : Bounded σ := fun fuel => do
  match ← manager.allocPages memory 3 fuel with
  | (some a, memory) => do
      assert (manager.nrFreePages memory ≤ uint64Sub initialFree 4)
        "nr_free_pages() <= initial_free - 4"
      manager.freePages memory a 3 fuel
  | (none, _) => .error (.panic "assertion failed: a")

/-- Test 5, with `1 << (MAX_ORDER - 1)` pages. -/
def testLargeBlock (initialFree : Nat) (memory : σ) : Bounded σ := fun fuel => do
  match ← manager.allocPages memory 512 fuel with
  | (some d, memory) => do
      assert (manager.nrFreePages memory ≤ uint64Sub initialFree 512)
        "nr_free_pages() <= initial_free - (1 << (MAX_ORDER - 1))"
      manager.freePages memory d 512 fuel
  | (none, memory) => .ok memory

/-- Test 6. -/
def testMixed (memory : σ) : Bounded σ := fun fuel => do
  let (a, memory) ← manager.allocPages memory 2 fuel
  let (b, memory) ← manager.allocPages memory 2 fuel
  let (c, memory) ← manager.allocPages memory 2 fuel
  let (d, memory) ← manager.allocPages memory 2 fuel
  match a, b, c, d with
  | some a, some b, some c, some d => do
      let memory ← manager.freePages memory d 2 fuel
      let memory ← manager.freePages memory b 2 fuel
      let memory ← manager.freePages memory c 2 fuel
      let memory ← manager.freePages memory a 2 fuel
      match ← manager.allocPages memory 8 fuel with
      | (some large, memory) => manager.freePages memory large 8 fuel
      | (none, memory) => .ok memory
  | _, _, _, _ => .error (.panic "assertion failed: a && b && c && d")

def buddyDeterministicTests (memory : σ) : Bounded σ := fun fuel => do
  let initialFree := manager.nrFreePages memory
  let memory ← testSinglePages manager initialFree memory fuel
  let memory ← testMultiPages manager initialFree memory fuel
  let memory ← testRoundedUp manager initialFree memory fuel
  let memory ← testLargeBlock manager initialFree memory fuel
  testMixed manager memory fuel

/-- The entries of `allocs` and `sizes`, the last one first. -/
abbrev Allocs := List (Option Nat × Nat)

/-- The loop of `buddy_random_tests` that allocates. -/
def randomAllocs : (rounds : Nat) → (seed : Nat) → Allocs → σ → Bounded (Allocs × σ)
  | 0, _, allocs, memory => fun _ => .ok (allocs, memory)
  | rounds + 1, seed, allocs, memory => fun fuel => do
      let seed := uint32 (seed * 1103515245 + 12345)
      let r := (seed >>> 16) &&& 0x7fff
      let s := r % 16 + 1
      let (page, memory) ← manager.allocPages memory s fuel
      randomAllocs rounds seed ((page, s) :: allocs) memory fuel

/-- Free what was allocated, entry by entry. -/
def freeAllocs : Allocs → σ → Bounded σ
  | [], memory => fun _ => .ok memory
  | (none, _) :: allocs, memory => freeAllocs allocs memory
  | (some page, s) :: allocs, memory => fun fuel => do
      let memory ← manager.freePages memory page s fuel
      freeAllocs allocs memory fuel

def buddyRandomTests (memory : σ) : Bounded σ := fun fuel => do
  let (allocs, memory) ← randomAllocs manager 256 0x12345678 [] memory fuel
  freeAllocs manager allocs memory fuel

def buddyRandomRounds : (rounds : Nat) → σ → Bounded σ
  | 0, memory => fun _ => .ok memory
  | rounds + 1, memory => fun fuel => do
      let memory ← buddyRandomTests manager memory fuel
      buddyRandomRounds rounds memory fuel

/-- The loop of the smoke test that allocates; `plist` has the last page first. -/
def smokePages : (rounds : Nat) → (plist : List Nat) → σ → Bounded (List Nat × σ)
  | 0, plist, memory => fun _ => .ok (plist, memory)
  | rounds + 1, plist, memory => fun fuel => do
      match ← manager.allocPages memory 1 fuel with
      | (none, memory) => .ok (plist, memory)
      | (some q, memory) => smokePages rounds (q :: plist) memory fuel

/-- `CAP` is 1024. -/
def buddySmokeTest (memory : σ) : Bounded σ := fun fuel => do
  let (plist, memory) ← smokePages manager 1024 [] memory fuel
  freeAllocs manager (plist.reverse.map fun q => (some q, 1)) memory fuel

def buddyCheck (memory : σ) : Bounded σ := fun fuel => do
  let memory ← buddyDeterministicTests manager memory fuel
  let memory ← buddyRandomRounds manager 4 memory fuel
  buddySmokeTest manager memory fuel

end Ucore.Mm
