import Ucore.Mm.Buddy.Vacancy
import Ucore.Mm.BuddyCheck.Calls

namespace Ucore.Mm.BuddyCheck

open Ucore.Data Buddy

/-! What `buddy_check` needs to pass, in the states that a run from an aligned region can reach. -/

variable {layout : Layout} {memory : BuddyMemory} {base n count page order rounds seed : Nat}
  {outstanding : List Allocation}

theorem full_cons (full : vacancies base n outstanding (MAX_ORDER + 1) = ∅) (allocation : Allocation) :
    vacancies base n (allocation :: outstanding) (MAX_ORDER + 1) = ∅ :=
  Finset.subset_empty.mp (full ▸ vacancies_cons_subset allocation)

theorem handedOut_cons (allocation : Allocation) : handedOut (allocation :: outstanding) =
    2 ^ (blockOf allocation).order + handedOut outstanding := by
  rw [handedOut, List.map_cons, List.sum_cons, handedOut]

theorem answers (intact : Intact layout base n memory outstanding) (fits : n < 2 ^ 32)
    (isOrder : Nat.clog 2 count = order) (positive : count ≠ 0) (bound : order ≤ MAX_ORDER) :
    ∃ answer after, Returns ((buddyPmmManager layout).allocPages memory count) (answer, after) ∧
      Intact layout base n after (granted answer count ++ outstanding) ∧
      (vacancies base n (granted answer count ++ outstanding) order).card +
        (granted answer count).length = (vacancies base n outstanding order).card ∧
      (answer = none → (vacancies base n outstanding order).card = 0) := by
  subst isOrder
  rcases Finset.eq_empty_or_nonempty (vacancies base n outstanding (Nat.clog 2 count)) with
    empty | some_
  · exact ⟨none, memory, intact.refuses empty (count_le bound), intact, rfl,
      fun _ => Finset.card_eq_zero.mpr empty⟩
  · obtain ⟨page, after, granted, intactAfter, member⟩ := intact.grants fits positive bound some_
    refine ⟨some page, after, granted, intactAfter, ?_, fun isNone => by cases isNone⟩
    change (vacancies base n (⟨page, count⟩ :: outstanding) (Nat.clog 2 count)).card + 1 = _
    rw [vacancies_cons (mem_vacancies.mp member).1]
    exact Finset.card_erase_add_one member

theorem length_granted (page count : Nat) : (granted (some page) count).length = 1 := rfl

/-- A run of four pages is two runs of two. -/
theorem pairs_of_quad (member : page ∈ vacancies base n outstanding 2) :
    2 ≤ (vacancies base n outstanding 1).card := by
  obtain ⟨divides, vacant⟩ := mem_vacancies.mp member
  have halves : {page, page + 2} ⊆ vacancies base n outstanding 1 := by
    intro start isHalf
    have within : start = page ∨ start = page + 2 := by simpa using isHalf
    refine mem_vacancies.mpr ⟨by omega, fun point inside => vacant point ?_⟩
    simp only [Block.extent, Extent.mem_points] at inside ⊢
    omega
  have size := Finset.card_le_card halves
  rwa [Finset.card_pair (by omega)] at size

theorem pages_of_pairs :
    vacancies base n outstanding 1 ⊆ vacancies base n outstanding 0 := by
  intro start member
  obtain ⟨_, vacant⟩ := mem_vacancies.mp member
  refine mem_vacancies.mpr ⟨one_dvd start, fun point inside => vacant point ?_⟩
  simp only [Block.extent, Extent.mem_points] at inside ⊢
  omega

theorem clog_one : Nat.clog 2 1 = 0 := Nat.clog_one_right 2

theorem clog_two : Nat.clog 2 2 = 1 := Nat.clog_pow 2 1 one_lt_two

theorem clog_four : Nat.clog 2 4 = 2 := Nat.clog_pow 2 2 one_lt_two

section Tests

variable {initialFree : Nat} (intact : Intact layout base n memory outstanding)
  (full : vacancies base n outstanding (MAX_ORDER + 1) = ∅) (fits : n < 2 ^ 32)
  (counted : initialFree + handedOut outstanding = n)

include intact full fits counted

theorem singlePages_decides :
    Decides (3 ≤ (vacancies base n outstanding 0).card)
      (testSinglePages (buddyPmmManager layout) initialFree memory)
      fun after => Intact layout base n after outstanding := by
  obtain ⟨a, memoryA, runA, intactA, countA, noneA⟩ :=
    answers intact fits clog_one one_ne_zero (by decide)
  obtain ⟨b, memoryB, runB, intactB, countB, noneB⟩ :=
    answers intactA fits clog_one one_ne_zero (by decide)
  obtain ⟨c, memoryC, runC, intactC, countC, noneC⟩ :=
    answers intactB fits clog_one one_ne_zero (by decide)
  unfold testSinglePages
  refine .after runA (.after runB (.after runC ?_))
  match a, b, c with
  | some a, some b, some c =>
      simp only [length_granted] at countA countB countC
      change Intact layout base n memoryC (⟨c, 1⟩ :: ⟨b, 1⟩ :: ⟨a, 1⟩ :: outstanding) at intactC
      have taken := intactC.counted fits
      simp only [handedOut_cons, blockOf, clog_one] at taken
      have counter : memoryC.nrFree = uint64Sub initialFree 3 := by
        rw [uint64Sub_of_le (by omega) (by omega)]
        omega
      refine .after (asserted (decide_eq_true counter)) ?_
      obtain ⟨freedB, freeB, intactB⟩ := (intactC.perm (.swap _ _ _)).frees
        (full_cons (full_cons full _) _)
      obtain ⟨freedA, freeA, intactA⟩ := (intactB.perm (.swap _ _ _)).frees (full_cons full _)
      obtain ⟨freedC, freeC, intactEnd⟩ := intactA.frees full
      refine .after freeB (.after freeA (.after freeC ?_))
      have restored : freedC.nrFree = initialFree := by
        have after := intactEnd.counted fits
        omega
      refine .after (asserted (decide_eq_true restored)) ?_
      have enough : 3 ≤ (vacancies base n outstanding 0).card := by omega
      exact .of_returns enough (.of_constant fun _ => rfl) intactEnd
  | none, _, _ =>
      have nothing := noneA rfl
      exact .of_panic (by omega) (.of_constant fun _ => rfl)
  | some _, none, _ =>
      have nothing := noneB rfl
      simp only [length_granted] at countA
      exact .of_panic (by omega) (.of_constant fun _ => rfl)
  | some _, some _, none =>
      have nothing := noneC rfl
      simp only [length_granted] at countA countB
      exact .of_panic (by omega) (.of_constant fun _ => rfl)

theorem multiPages_decides :
    Decides (3 ≤ (vacancies base n outstanding 1).card ∧ (vacancies base n outstanding 2).Nonempty)
      (testMultiPages (buddyPmmManager layout) initialFree memory)
      fun after => Intact layout base n after outstanding := by
  obtain ⟨a, memoryA, runA, intactA, countA, noneA⟩ :=
    answers intact fits clog_two two_ne_zero (by decide)
  obtain ⟨b, memoryB, runB, intactB, countB, noneB⟩ :=
    answers intactA fits clog_four four_ne_zero (by decide)
  unfold testMultiPages
  refine .after runA (.after runB ?_)
  match a, b with
  | some a, some b =>
      simp only [length_granted] at countA countB
      change Intact layout base n memoryB (⟨b, 4⟩ :: ⟨a, 2⟩ :: outstanding) at intactB
      have taken := intactB.counted fits
      simp only [handedOut_cons, blockOf, clog_two, clog_four] at taken
      have counter : memoryB.nrFree = uint64Sub initialFree 6 := by
        rw [uint64Sub_of_le (by omega) (by omega)]
        omega
      refine .after (asserted (decide_eq_true counter)) ?_
      obtain ⟨freedA, freeA, intactA⟩ := (intactB.perm (.swap _ _ _)).frees (full_cons full _)
      obtain ⟨freedB, freeB, intactEnd⟩ := intactA.frees full
      refine .after freeA (.after freeB ?_)
      have restored : freedB.nrFree = initialFree := by
        have after := intactEnd.counted fits
        omega
      refine .after (asserted (decide_eq_true restored)) ?_
      obtain ⟨quad, member⟩ := Finset.card_pos.mp (Nat.lt_of_lt_of_eq (Nat.succ_pos _) countB)
      have pairs := pairs_of_quad member
      have enough : 3 ≤ (vacancies base n outstanding 1).card := by omega
      exact .of_returns ⟨enough, quad, vacancies_cons_subset _ member⟩ (.of_constant fun _ => rfl)
        intactEnd
  | none, _ =>
      have nothing := noneA rfl
      exact .of_panic (by omega) (.of_constant fun _ => rfl)
  | some a, none =>
      refine .of_panic (fun enough => ?_) (.of_constant fun _ => rfl)
      have quad := intact.larger_remains fits clog_two two_ne_zero (by decide) enough.1 enough.2 runA
      exact absurd (noneB rfl) (Finset.card_pos.mpr quad).ne'

theorem roundedUp_decides :
    Decides (vacancies base n outstanding 2).Nonempty
      (testRoundedUp (buddyPmmManager layout) initialFree memory)
      fun after => Intact layout base n after outstanding := by
  have isOrder : Nat.clog 2 3 = 2 := by decide
  obtain ⟨a, memoryA, runA, intactA, countA, noneA⟩ :=
    answers intact fits isOrder three_ne_zero (by decide)
  unfold testRoundedUp
  refine .after runA ?_
  cases a with
  | none =>
      refine .of_panic (fun found => ?_) (.of_constant fun _ => rfl)
      exact absurd (noneA rfl) (Finset.card_pos.mpr found).ne'
  | some a =>
      change Intact layout base n memoryA (⟨a, 3⟩ :: outstanding) at intactA
      have taken := intactA.counted fits
      simp only [handedOut_cons, blockOf, isOrder] at taken
      have counter : memoryA.nrFree ≤ uint64Sub initialFree 4 := by
        rw [uint64Sub_of_le (by omega) (by omega)]
        omega
      refine .after (asserted (decide_eq_true counter)) ?_
      obtain ⟨freed, free, intactEnd⟩ := intactA.frees full
      have some_ := Finset.card_pos.mp (Nat.lt_of_lt_of_eq (Nat.succ_pos _) countA)
      exact .of_returns some_ free intactEnd

theorem largeBlock_decides :
    Decides True (testLargeBlock (buddyPmmManager layout) initialFree memory)
      fun after => Intact layout base n after outstanding := by
  have isOrder : Nat.clog 2 512 = 9 := Nat.clog_pow 2 9 one_lt_two
  obtain ⟨d, memoryD, runD, intactD, _⟩ := answers intact fits isOrder (by decide) (by decide)
  unfold testLargeBlock
  refine .after runD ?_
  cases d with
  | none => exact .of_returns trivial (.of_constant fun _ => rfl) intactD
  | some d =>
      change Intact layout base n memoryD (⟨d, 512⟩ :: outstanding) at intactD
      have taken := intactD.counted fits
      simp only [handedOut_cons, blockOf, isOrder] at taken
      have counter : memoryD.nrFree ≤ uint64Sub initialFree 512 := by
        rw [uint64Sub_of_le (by omega) (by omega)]
        omega
      refine .after (asserted (decide_eq_true counter)) ?_
      obtain ⟨freed, free, intactEnd⟩ := intactD.frees full
      exact .of_returns trivial free intactEnd

end Tests

section Loops

variable (intact : Intact layout base n memory outstanding)
  (full : vacancies base n outstanding (MAX_ORDER + 1) = ∅) (fits : n < 2 ^ 32)

include intact full fits

theorem mixed_decides : Decides (4 ≤ (vacancies base n outstanding 1).card)
    (testMixed (buddyPmmManager layout) memory)
    fun after => Intact layout base n after outstanding := by
  obtain ⟨a, memoryA, runA, intactA, countA, noneA⟩ :=
    answers intact fits clog_two two_ne_zero (by decide)
  obtain ⟨b, memoryB, runB, intactB, countB, noneB⟩ :=
    answers intactA fits clog_two two_ne_zero (by decide)
  obtain ⟨c, memoryC, runC, intactC, countC, noneC⟩ :=
    answers intactB fits clog_two two_ne_zero (by decide)
  obtain ⟨d, memoryD, runD, intactD, countD, noneD⟩ :=
    answers intactC fits clog_two two_ne_zero (by decide)
  unfold testMixed
  refine .after runA (.after runB (.after runC (.after runD ?_)))
  match a, b, c, d with
  | some a, some b, some c, some d =>
      simp only [length_granted] at countA countB countC countD
      have enough : 4 ≤ (vacancies base n outstanding 1).card := by omega
      change Intact layout base n memoryD
        (⟨d, 2⟩ :: ⟨c, 2⟩ :: ⟨b, 2⟩ :: ⟨a, 2⟩ :: outstanding) at intactD
      have fullA := full_cons full ⟨a, 2⟩
      have fullC := full_cons fullA ⟨c, 2⟩
      obtain ⟨freedD, freeD, intactD⟩ := intactD.frees
        (full_cons (full_cons fullA ⟨b, 2⟩) ⟨c, 2⟩)
      obtain ⟨freedB, freeB, intactB⟩ := (intactD.perm (.swap _ _ _)).frees fullC
      obtain ⟨freedC, freeC, intactC⟩ := intactB.frees fullA
      obtain ⟨freedA, freeA, intactA⟩ := intactC.frees full
      refine .after freeD (.after freeB (.after freeC (.after freeA ?_)))
      have isOrder : Nat.clog 2 8 = 3 := Nat.clog_pow 2 3 one_lt_two
      obtain ⟨large, memoryL, runL, intactL, _⟩ := answers intactA fits isOrder (by decide) (by decide)
      refine .after runL ?_
      cases large with
      | none => exact .of_returns enough (.of_constant fun _ => rfl) intactL
      | some large =>
          obtain ⟨freed, free, intactEnd⟩ := Intact.frees intactL full
          exact .of_returns enough free intactEnd
  | none, _, _, _ =>
      have nothing := noneA rfl
      exact .of_panic (by omega) (.of_constant fun _ => rfl)
  | some _, none, _, _ =>
      have nothing := noneB rfl
      simp only [length_granted] at countA
      exact .of_panic (by omega) (.of_constant fun _ => rfl)
  | some _, some _, none, _ =>
      have nothing := noneC rfl
      simp only [length_granted] at countA countB
      exact .of_panic (by omega) (.of_constant fun _ => rfl)
  | some _, some _, some _, none =>
      have nothing := noneD rfl
      simp only [length_granted] at countA countB countC
      exact .of_panic (by omega) (.of_constant fun _ => rfl)

theorem deterministicTests_decides :
    Decides (4 ≤ (vacancies base n outstanding 1).card ∧ (vacancies base n outstanding 2).Nonempty)
      (buddyDeterministicTests (buddyPmmManager layout) memory)
      fun after => Intact layout base n after outstanding := by
  have counted := intact.counted fits
  have tests := (singlePages_decides intact full fits counted).bind fun _ memory intact =>
    (multiPages_decides intact full fits counted).bind fun _ memory intact =>
    (roundedUp_decides intact full fits counted).bind fun _ memory intact =>
    (largeBlock_decides intact full fits counted).bind fun _ memory intact =>
    mixed_decides intact full fits
  refine tests.congr ⟨fun all => ⟨all.2.2.2.2, all.2.2.1⟩, fun enough => ?_⟩
  have pages := Finset.card_le_card (@pages_of_pairs base n outstanding)
  exact ⟨by omega, ⟨by omega, enough.2⟩, enough.2, trivial, enough.1⟩

end Loops

theorem full_append (full : vacancies base n outstanding (MAX_ORDER + 1) = ∅)
    (blocks : List Allocation) : vacancies base n (blocks ++ outstanding) (MAX_ORDER + 1) = ∅ :=
  Finset.subset_empty.mp (full ▸ vacancies_append_subset blocks)

theorem randomAllocs_returns (fits : n < 2 ^ 32) (allocs : Allocs)
    (intact : Intact layout base n memory (blocksOf allocs ++ outstanding)) :
    ∃ allocated after,
      Returns (randomAllocs (buddyPmmManager layout) rounds seed allocs memory) (allocated, after) ∧
      Intact layout base n after (blocksOf allocated ++ outstanding) := by
  induction rounds generalizing seed allocs memory with
  | zero => exact ⟨allocs, memory, .of_constant fun _ => rfl, intact⟩
  | succ rounds ih =>
      generalize isSeed : uint32 (seed * 1103515245 + 12345) = next
      generalize isSize : ((next >>> 16) &&& 0x7fff) % 16 + 1 = s
      have small : s ≤ 2 ^ 4 := by omega
      have bound : Nat.clog 2 s ≤ MAX_ORDER := (Nat.clog_le_of_le_pow small).trans (by decide)
      obtain ⟨page, middle, alloc, held, _⟩ := answers intact fits rfl (by omega) bound
      rw [← List.append_assoc] at held
      obtain ⟨allocated, after, others, final⟩ := @ih middle next ((page, s) :: allocs) held
      refine ⟨allocated, after, ?_, final⟩
      unfold randomAllocs
      simp only [isSeed, isSize]
      exact alloc.bind others

theorem freeAllocs_returns (full : vacancies base n outstanding (MAX_ORDER + 1) = ∅)
    (allocs : Allocs) (intact : Intact layout base n memory (blocksOf allocs ++ outstanding)) :
    ∃ after, Returns (freeAllocs (buddyPmmManager layout) allocs memory) after ∧
      Intact layout base n after outstanding := by
  induction allocs generalizing memory with
  | nil => exact ⟨memory, .of_constant fun _ => rfl, intact⟩
  | cons entry allocs ih =>
      obtain ⟨page, s⟩ := entry
      cases page with
      | none => exact ih intact
      | some page =>
          obtain ⟨middle, free, held⟩ := Intact.frees intact (full_append full (blocksOf allocs))
          obtain ⟨after, others, final⟩ := ih held
          exact ⟨after, free.bind others, final⟩

theorem randomRounds_returns (full : vacancies base n outstanding (MAX_ORDER + 1) = ∅)
    (fits : n < 2 ^ 32) (intact : Intact layout base n memory outstanding) :
    ∃ after, Returns (buddyRandomRounds (buddyPmmManager layout) rounds memory) after ∧
      Intact layout base n after outstanding := by
  induction rounds generalizing memory with
  | zero => exact ⟨memory, .of_constant fun _ => rfl, intact⟩
  | succ rounds ih =>
      obtain ⟨allocs, filled, alloc, held⟩ := @randomAllocs_returns _ _ _ _ 256 0x12345678
        outstanding fits [] intact
      obtain ⟨emptied, free, restored⟩ := freeAllocs_returns full allocs held
      obtain ⟨after, others, final⟩ := ih restored
      exact ⟨after, (alloc.bind free).bind others, final⟩

theorem smokePages_returns (fits : n < 2 ^ 32) (plist : List Nat)
    (intact : Intact layout base n memory (singles plist ++ outstanding)) :
    ∃ pages after,
      Returns (smokePages (buddyPmmManager layout) rounds plist memory) (pages, after) ∧
      Intact layout base n after (singles pages ++ outstanding) := by
  induction rounds generalizing plist memory with
  | zero => exact ⟨plist, memory, .of_constant fun _ => rfl, intact⟩
  | succ rounds ih =>
      obtain ⟨page, middle, alloc, held, _⟩ :=
        answers intact fits clog_one one_ne_zero (by decide)
      cases page with
      | none => exact ⟨plist, middle, alloc.bind (.of_constant fun _ => rfl), held⟩
      | some q =>
          obtain ⟨pages, after, others, final⟩ := ih (q :: plist) held
          exact ⟨pages, after, alloc.bind others, final⟩

theorem smokeTest_returns (full : vacancies base n outstanding (MAX_ORDER + 1) = ∅)
    (fits : n < 2 ^ 32) (intact : Intact layout base n memory outstanding) :
    ∃ after, Returns (buddySmokeTest (buddyPmmManager layout) memory) after ∧
      Intact layout base n after outstanding := by
  obtain ⟨plist, filled, alloc, held⟩ := @smokePages_returns _ _ _ _ 1024 outstanding fits [] intact
  have turned := held.perm (((List.reverse_perm plist).symm.map _).append_right outstanding)
  rw [← singles, ← blocksOf_singles] at turned
  obtain ⟨after, free, final⟩ := freeAllocs_returns full _ turned
  exact ⟨after, alloc.bind free, final⟩

theorem buddyCheck_decides (intact : Intact layout base n memory outstanding)
    (full : vacancies base n outstanding (MAX_ORDER + 1) = ∅) (fits : n < 2 ^ 32) :
    Decides (4 ≤ (vacancies base n outstanding 1).card ∧ (vacancies base n outstanding 2).Nonempty)
      (buddyCheck (buddyPmmManager layout) memory)
      fun after => Intact layout base n after outstanding := by
  refine ((deterministicTests_decides intact full fits).bind fun _ memory intact => ?_).congr
    (iff_of_eq (and_true _))
  obtain ⟨middle, rounds, restored⟩ := @randomRounds_returns _ _ _ _ 4 _ full fits intact
  obtain ⟨after, smoke, final⟩ := smokeTest_returns full fits restored
  exact .of_returns trivial (rounds.bind smoke) final

/-- In a state without loss, where no run of twice the top order is vacant, `buddy_check` passes
exactly if four runs of two pages and one of four are vacant.  Then it leaves the lists as they were,
and otherwise it stops in an assertion. -/
theorem buddyCheck_passes_iff {start : BuddyMemory} {client last : Client BuddyMemory}
    {trace : List (Client BuddyMemory × Request)}
    (booted : Booted (buddyPmmManager layout) start base n client)
    (run : Run (Step (buddyPmmManager layout)) client trace last) (fits : n < 2 ^ 32)
    (divides : 2 ^ min MAX_ORDER (Nat.log 2 n) ∣ base)
    (uncapped : ∀ taken ∈ trace, ¬ MergesAtTop layout taken.1 taken.2)
    (full : vacancies base n last.outstanding (MAX_ORDER + 1) = ∅) :
    ((∃ after, Returns (buddyCheck (buddyPmmManager layout) last.memory) after) ↔
      4 ≤ (vacancies base n last.outstanding 1).card ∧
        (vacancies base n last.outstanding 2).Nonempty) ∧
    (∀ after, Returns (buddyCheck (buddyPmmManager layout) last.memory) after →
      SameBlocks layout last.memory after ∧
        buddyNrFreePages after = buddyNrFreePages last.memory) ∧
    ((¬ ∃ after, Returns (buddyCheck (buddyPmmManager layout) last.memory) after) →
      ∃ message, Ends (buddyCheck (buddyPmmManager layout) last.memory)
        (.error (.panic message))) := by
  have intact : Intact layout base n last.memory last.outstanding :=
    canonical_run booted run divides uncapped
  have decides := buddyCheck_decides intact full fits
  refine ⟨decides.returns_iff, fun after returns => ?_, fun stops => ?_⟩
  · obtain ⟨same, counter⟩ := intact.sameBlocks (decides.post_of_returns returns)
    exact ⟨same, counter.symm⟩
  · exact decides.panics fun enough => stops (decides.returns_iff.mpr enough)

theorem buddyCheck_passes_sixteen : ∃ client after, Booted bootManager bootMemory 16 16 client ∧
    Returns (buddyCheck bootManager client.memory) after ∧
    SameBlocks bootLayout client.memory after ∧ buddyNrFreePages after = 16 := by
  obtain ⟨client, booted⟩ := @bootMemory_booted 16 bootLayout 16 (by decide) (by decide)
  have none := booted.2
  have full : vacancies 16 16 client.outstanding (MAX_ORDER + 1) = ∅ := by
    rw [none]
    decide +kernel
  obtain ⟨passes, restores, _⟩ := buddyCheck_passes_iff booted (.done client) (by decide)
    (by decide +kernel) (by simp) full
  have enough : 4 ≤ (vacancies 16 16 client.outstanding 1).card ∧
      (vacancies 16 16 client.outstanding 2).Nonempty := by
    rw [none]
    exact ⟨by decide +kernel, 16, by decide +kernel⟩
  obtain ⟨after, returns⟩ := passes.mpr enough
  obtain ⟨same, counter⟩ := restores after returns
  obtain ⟨_, whole, _⟩ := Whole.initial booted
  have all := (whole.conserved (by decide)).sum
  rw [none] at all
  exact ⟨client, after, booted, returns, same, counter.trans all⟩

end Ucore.Mm.BuddyCheck
