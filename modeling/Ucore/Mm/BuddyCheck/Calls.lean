import Ucore.Mm.BuddyCheck
import Ucore.Mm.Script

namespace Ucore.Mm.BuddyCheck

open Ucore.Data

/-! `buddy_check` as one of the clients of the manager. -/

/-- From the first memory, with these blocks outstanding, a run leads to the second memory and those
blocks; their order does not matter. -/
def Calls {σ : Type} (manager : PmmManager σ) (memory : σ) (outstanding : List Allocation)
    (after : σ) (remaining : List Allocation) : Prop :=
  ∀ all, all.Perm outstanding → ∃ trace final,
    Run (Step manager) ⟨memory, all⟩ trace ⟨after, final⟩ ∧ final.Perm remaining

variable {σ : Type} {manager : PmmManager σ} {memory middle after : σ} {answer : Option Nat}
  {outstanding remaining final blocks : List Allocation} {page n fuel rounds seed initialFree : Nat}
  {allocs allocated : Allocs} {plist pages : List Nat}

namespace Calls

theorem perm (same : outstanding.Perm remaining) :
    Calls manager memory outstanding memory remaining :=
  fun all isAll => ⟨[], all, .done _, isAll.trans same⟩

theorem trans (first : Calls manager memory outstanding middle remaining)
    (second : Calls manager middle remaining after final) :
    Calls manager memory outstanding after final := by
  intro all isAll
  obtain ⟨trace, there, run, isThere⟩ := first all isAll
  obtain ⟨later, last, rest, isLast⟩ := second there isThere
  exact ⟨trace ++ later, last, run.append rest, isLast⟩

end Calls

/-- What `alloc_pages` returned, as an outstanding block. -/
def granted (answer : Option Nat) (n : Nat) : List Allocation :=
  answer.toList.map fun page => ⟨page, n⟩

/-- The entries that hold a page. -/
def blocksOf (allocs : Allocs) : List Allocation :=
  allocs.flatMap fun entry => granted entry.1 entry.2

/-- The blocks of one page each. -/
def singles (plist : List Nat) : List Allocation := plist.map fun q => ⟨q, 1⟩

theorem blocksOf_singles (plist : List Nat) :
    blocksOf (plist.map fun q => (some q, 1)) = singles plist := by
  induction plist with
  | nil => rfl
  | cons q plist ih => exact congrArg (⟨q, 1⟩ :: ·) ih

section Programs

variable (steady : manager.SteadyOps)

include steady

theorem alloc_calls (done : manager.allocPages memory n fuel = .ok (answer, after))
    (outstanding : List Allocation) :
    Calls manager memory outstanding after (granted answer n ++ outstanding) := by
  intro all isAll
  have returns := (steady.allocPages memory n).returns done
  cases answer with
  | none => exact ⟨_, all, .step (.refused returns) (.done _), isAll⟩
  | some page => exact ⟨_, _, .step (.allocated returns) (.done _), isAll.cons _⟩

theorem free_calls (done : manager.freePages memory page n fuel = .ok after)
    (outstanding : List Allocation) :
    Calls manager memory (⟨page, n⟩ :: outstanding) after outstanding := by
  intro all isAll
  have returns := (steady.freePages memory page n).returns done
  have member : ⟨page, n⟩ ∈ all := isAll.mem_iff.mpr (List.mem_cons_self ..)
  have step : Step manager ⟨memory, all⟩ (.free ⟨page, n⟩) ⟨after, all.erase ⟨page, n⟩⟩ :=
    .freed member returns
  refine ⟨_, _, .step step (.done _), ?_⟩
  have erased := isAll.erase ⟨page, n⟩
  rwa [List.erase_cons_head] at erased

theorem singlePages_calls
    (done : testSinglePages manager initialFree memory fuel = .ok after) :
    Calls manager memory outstanding after outstanding := by
  simp only [testSinglePages, bind_eq_ok] at done
  obtain ⟨⟨a, memoryA⟩, allocA, ⟨b, memoryB⟩, allocB, ⟨c, memoryC⟩, allocC, done⟩ := done
  have runA := alloc_calls steady allocA outstanding
  have runB := runA.trans (alloc_calls steady allocB _)
  have runC := runB.trans (alloc_calls steady allocC _)
  match a, b, c with
  | some a, some b, some c =>
      simp only [bind_eq_ok] at done
      obtain ⟨_, _, freedB, freeB, freedA, freeA, freedC, freeC, _, _, same⟩ := done
      cases same
      refine ((runC.trans (.perm (.swap _ _ _))).trans (free_calls steady freeB _)).trans ?_
      exact ((Calls.perm (.swap _ _ _)).trans (free_calls steady freeA _)).trans
        (free_calls steady freeC _)
  | none, _, _ => cases done
  | some _, none, _ => cases done
  | some _, some _, none => cases done

theorem multiPages_calls
    (done : testMultiPages manager initialFree memory fuel = .ok after) :
    Calls manager memory outstanding after outstanding := by
  simp only [testMultiPages, bind_eq_ok] at done
  obtain ⟨⟨a, memoryA⟩, allocA, ⟨b, memoryB⟩, allocB, done⟩ := done
  have runs := (alloc_calls steady allocA outstanding).trans (alloc_calls steady allocB _)
  match a, b with
  | some a, some b =>
      simp only [bind_eq_ok] at done
      obtain ⟨_, _, freedA, freeA, freedB, freeB, _, _, same⟩ := done
      cases same
      refine ((runs.trans (.perm (.swap _ _ _))).trans (free_calls steady freeA _)).trans ?_
      exact free_calls steady freeB _
  | none, _ => cases done
  | some _, none => cases done

theorem roundedUp_calls
    (done : testRoundedUp manager initialFree memory fuel = .ok after) :
    Calls manager memory outstanding after outstanding := by
  simp only [testRoundedUp, bind_eq_ok] at done
  obtain ⟨⟨a, memoryA⟩, alloc, done⟩ := done
  cases a with
  | none => cases done
  | some a =>
      simp only [bind_eq_ok] at done
      obtain ⟨_, _, free⟩ := done
      exact (alloc_calls steady alloc outstanding).trans (free_calls steady free _)

theorem largeBlock_calls
    (done : testLargeBlock manager initialFree memory fuel = .ok after) :
    Calls manager memory outstanding after outstanding := by
  simp only [testLargeBlock, bind_eq_ok] at done
  obtain ⟨⟨d, memoryD⟩, alloc, done⟩ := done
  have run := alloc_calls steady alloc outstanding
  cases d with
  | none =>
      cases done
      exact run
  | some d =>
      simp only [bind_eq_ok] at done
      obtain ⟨_, _, free⟩ := done
      exact run.trans (free_calls steady free _)

theorem mixed_calls (done : testMixed manager memory fuel = .ok after) :
    Calls manager memory outstanding after outstanding := by
  simp only [testMixed, bind_eq_ok] at done
  obtain ⟨⟨a, memoryA⟩, allocA, ⟨b, memoryB⟩, allocB, ⟨c, memoryC⟩, allocC, ⟨d, memoryD⟩, allocD,
    done⟩ := done
  have runB := (alloc_calls steady allocA outstanding).trans (alloc_calls steady allocB _)
  have runD := (runB.trans (alloc_calls steady allocC _)).trans (alloc_calls steady allocD _)
  match a, b, c, d with
  | some a, some b, some c, some d =>
      simp only [bind_eq_ok] at done
      obtain ⟨freedD, freeD, freedB, freeB, freedC, freeC, freedA, freeA, ⟨large, memoryL⟩, allocL,
        done⟩ := done
      have freed : Calls manager memoryD _ freedB _ := ((free_calls steady freeD _).trans
        (.perm (.swap _ _ _))).trans (free_calls steady freeB (⟨c, 2⟩ :: ⟨a, 2⟩ :: outstanding))
      have back := (runD.trans freed).trans
        ((free_calls steady freeC _).trans (free_calls steady freeA _))
      have run := back.trans (alloc_calls steady allocL _)
      cases large with
      | none =>
          cases done
          exact run
      | some large => exact run.trans (free_calls steady done _)
  | none, _, _, _ => cases done
  | some _, none, _, _ => cases done
  | some _, some _, none, _ => cases done
  | some _, some _, some _, none => cases done

theorem deterministicTests_calls
    (done : buddyDeterministicTests manager memory fuel = .ok after) :
    Calls manager memory outstanding after outstanding := by
  simp only [buddyDeterministicTests, bind_eq_ok] at done
  obtain ⟨_, single, _, multi, _, rounded, _, large, mixed⟩ := done
  refine (singlePages_calls steady single).trans ((multiPages_calls steady multi).trans ?_)
  refine (roundedUp_calls steady rounded).trans ((largeBlock_calls steady large).trans ?_)
  exact mixed_calls steady mixed

theorem randomAllocs_calls
    (done : randomAllocs manager rounds seed allocs memory fuel = .ok (allocated, after)) :
    Calls manager memory (blocksOf allocs ++ outstanding) after
      (blocksOf allocated ++ outstanding) := by
  induction rounds generalizing seed allocs memory with
  | zero =>
      cases done
      exact .perm (.refl _)
  | succ rounds ih =>
      simp only [randomAllocs, bind_eq_ok] at done
      obtain ⟨⟨page, middle⟩, alloc, done⟩ := done
      have run := alloc_calls steady alloc (blocksOf allocs ++ outstanding)
      rw [← List.append_assoc] at run
      exact run.trans (ih done)

theorem freeAllocs_calls (done : freeAllocs manager allocs memory fuel = .ok after) :
    Calls manager memory (blocksOf allocs ++ outstanding) after outstanding := by
  induction allocs generalizing memory with
  | nil =>
      cases done
      exact .perm (.refl _)
  | cons entry allocs ih =>
      obtain ⟨page, s⟩ := entry
      cases page with
      | none => exact ih done
      | some page =>
          simp only [freeAllocs, bind_eq_ok] at done
          obtain ⟨middle, free, done⟩ := done
          exact (free_calls steady free (blocksOf allocs ++ outstanding)).trans (ih done)

theorem randomRounds_calls (done : buddyRandomRounds manager rounds memory fuel = .ok after) :
    Calls manager memory outstanding after outstanding := by
  induction rounds generalizing memory with
  | zero =>
      cases done
      exact .perm (.refl _)
  | succ rounds ih =>
      simp only [buddyRandomRounds, buddyRandomTests, bind_eq_ok] at done
      obtain ⟨middle, ⟨⟨allocs, full⟩, alloc, free⟩, done⟩ := done
      have allocated : Calls manager memory outstanding full (blocksOf allocs ++ outstanding) :=
        randomAllocs_calls steady alloc
      exact (allocated.trans (freeAllocs_calls steady free)).trans (ih done)

theorem smokePages_calls
    (done : smokePages manager rounds plist memory fuel = .ok (pages, after)) :
    Calls manager memory (singles plist ++ outstanding) after (singles pages ++ outstanding) := by
  induction rounds generalizing plist memory with
  | zero =>
      cases done
      exact .perm (.refl _)
  | succ rounds ih =>
      simp only [smokePages, bind_eq_ok] at done
      obtain ⟨⟨page, middle⟩, alloc, done⟩ := done
      have run := alloc_calls steady alloc (singles plist ++ outstanding)
      cases page with
      | none =>
          cases done
          exact run
      | some page => exact run.trans (ih done)

theorem smokeTest_calls (done : buddySmokeTest manager memory fuel = .ok after) :
    Calls manager memory outstanding after outstanding := by
  simp only [buddySmokeTest, bind_eq_ok] at done
  obtain ⟨⟨plist, middle⟩, alloc, free⟩ := done
  have allocated : Calls manager memory outstanding middle (singles plist ++ outstanding) :=
    smokePages_calls steady alloc
  have freed : Calls manager middle (_ ++ outstanding) after outstanding :=
    freeAllocs_calls steady free
  have same : (singles plist).Perm
      (blocksOf (plist.reverse.map fun q => (some q, 1))) := by
    rw [blocksOf_singles, singles, singles, List.map_reverse]
    exact (List.reverse_perm _).symm
  exact (allocated.trans (.perm (same.append_right outstanding))).trans freed

/-- `buddy_check` is a run of a client that frees all that it is handed. -/
theorem buddyCheck_calls (done : buddyCheck manager memory fuel = .ok after) :
    Calls manager memory outstanding after outstanding := by
  simp only [buddyCheck, bind_eq_ok] at done
  obtain ⟨_, tests, _, rounds, smoke⟩ := done
  exact (deterministicTests_calls steady tests).trans
    ((randomRounds_calls steady rounds).trans (smokeTest_calls steady smoke))

end Programs

end Ucore.Mm.BuddyCheck
