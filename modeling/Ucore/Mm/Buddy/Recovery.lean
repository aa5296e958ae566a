import Ucore.Mm.Buddy.Alignment
import Ucore.Mm.Buddy.Conservation

namespace Ucore.Mm.Buddy

open Ucore.Data Ucore.Libs Extent Block

/-! Recovery: once everything is freed, the lists are what they were after the boot. -/

variable {layout : Layout} {memory other : BuddyMemory} {client next last : Client BuddyMemory}
  {free others : Finset Block} {base n : Nat} {trace : List (Client BuddyMemory × Request)}
  {request : Request}

structure Recovered (layout : Layout) (booted last : Client BuddyMemory) : Prop where
  same : SameBlocks layout booted.memory last.memory
  satisfiable : ∀ m page after,
    Returns (buddyAllocPages layout booted.memory m) (some page, after) →
      ∃ page after, Returns (buddyAllocPages layout last.memory m) (some page, after)

theorem Holds.satisfies {count page : Nat} {after : BuddyMemory} (holds : Holds layout memory free)
    (holdsOther : Holds layout other free) (once : ∀ point, cover (extents free) point ≤ 1)
    (returns : Returns (buddyAllocPages layout memory count) (some page, after)) :
    ∃ page after, Returns (buddyAllocPages layout other count) (some page, after) := by
  rcases holds.alloc_inv once returns with
    refused | ⟨block, member, _, positive, enough, fits, reach, _⟩
  · cases refused.1
  · rw [holds.nrFree, ← holdsOther.nrFree] at enough
    rcases allocPages_cases holdsOther once positive enough fits with
      ⟨_, small⟩ | ⟨found, _, _, _, final, granted, _⟩
    · exact absurd (small block member) (Nat.not_lt.mpr reach)
    · exact ⟨found.start, final, granted⟩

theorem recovered_iff (sound : Sound layout base n client free) (holds : Holds layout last.memory others) :
    Recovered layout client last ↔ free = others := by
  constructor
  · intro recovered
    exact (sound.holds.sameBlocks_iff holds).mp recovered.same
  · intro same
    subst same
    exact ⟨(sound.holds.sameBlocks_iff holds).mpr rfl, fun _ _ _ returns =>
      sound.holds.satisfies holds sound.consistent.once_free returns⟩

/-- When nothing is outstanding, coalesced aligned blocks that fill the region are the first cut. -/
theorem Whole.eq_cut (whole : Whole layout base n last others)
    (aligned : ∀ block ∈ others, block.Aligned) (none : last.outstanding = [])
    (cut : Cut base n (base + n) 0 free) (alignedCut : ∀ block ∈ free, block.Aligned) :
    free = others := by
  have tiles := whole.tiles
  rw [none] at tiles
  have covers (point : Nat) : cover (extents others) point = cover {⟨base, n⟩} point := by
    simpa using tiles point
  refine coalesced_unique alignedCut aligned cut.coalesced whole.consistent.coalesced cut.order_le
    whole.consistent.order_le (fun point => ?_) fun point => ?_
  · rw [cut.tiles point, covers]
  · exact whole.consistent.once_free point

/-- A sound state in which some page of the region is neither free nor handed out. -/
def Lost (layout : Layout) (base n : Nat) (client : Client BuddyMemory) : Prop :=
  ∃ free, Sound layout base n client free ∧
    total (extents free) + handedOut client.outstanding < n

theorem Lost.preserved (lost : Lost layout base n client) (_ : True)
    (step : Step (buddyPmmManager layout) client request next) : Lost layout base n next := by
  obtain ⟨free, sound, less⟩ := lost
  obtain ⟨after, move, sound'⟩ := sound.step step
  have fewer : total (extents after + ↑(owned next.outstanding)) ≤
      total (extents free + ↑(owned client.outstanding)) := total_mono fun point => by
    rw [cover_add, cover_add]
    exact sound.consistent.cover_le move point
  rw [total_add, total_add, total_owned, total_owned] at fewer
  exact ⟨after, sound', fewer.trans_lt less⟩

theorem Whole.lost (whole : Whole layout base n client free)
    (capped : MergesAtTop layout client request)
    (step : Step (buddyPmmManager layout) client request next) : Lost layout base n next := by
  obtain ⟨after, move, sound⟩ := whole.toSound.step step
  have less := whole.consistent.total_capped move (whole.holds.mergesAtTop_iff.mp capped)
  have power : 0 < 2 ^ MAX_ORDER := Nat.two_pow_pos MAX_ORDER
  rw [whole.total_eq] at less
  exact ⟨after, sound, by omega⟩

theorem Whole.not_lost (whole : Whole layout base n client free) : ¬ Lost layout base n client := by
  intro lost
  obtain ⟨others, sound, less⟩ := lost
  rw [← whole.holds.unique sound.holds, whole.total_eq] at less
  exact Nat.lt_irrefl n less

theorem not_lost_iff (booted : Booted (buddyPmmManager layout) memory base n client)
    (run : Run (Step (buddyPmmManager layout)) client trace last) :
    ¬ Lost layout base n last ↔ ∀ taken ∈ trace, ¬ MergesAtTop layout taken.1 taken.2 := by
  obtain ⟨free, whole, _⟩ := Whole.initial booted
  refine run.last_iff (fun client => ∃ free, Whole layout base n client free)
    (Lost layout base n) Whole.preserved ?_ Lost.preserved ?_ ⟨free, whole⟩
  · intro state label next reached capped step
    obtain ⟨free, whole⟩ := reached
    exact whole.lost (not_not.mp capped) step
  · intro state reached
    obtain ⟨free, whole⟩ := reached
    exact whole.not_lost

/-- From an aligned region everything is recovered exactly if no merge went beyond the top order. -/
theorem recovered_of_empty (booted : Booted (buddyPmmManager layout) memory base n client)
    (run : Run (Step (buddyPmmManager layout)) client trace last)
    (divides : 2 ^ min MAX_ORDER (Nat.log 2 n) ∣ base) (none : last.outstanding = []) :
    Recovered layout client last ↔ ∀ taken ∈ trace, ¬ MergesAtTop layout taken.1 taken.2 := by
  obtain ⟨free, whole, cut⟩ := Whole.initial booted
  constructor
  · intro recovered
    refine (not_lost_iff booted run).mp fun lost => ?_
    obtain ⟨others, sound, less⟩ := lost
    obtain rfl := (recovered_iff whole.toSound sound.holds).mp recovered
    have all := whole.total_eq
    rw [booted.2] at all
    rw [none] at less
    exact Nat.ne_of_lt less all
  · intro uncapped
    obtain ⟨others, wholeLast⟩ := (run.invariant _ Whole.preserved ⟨free, whole⟩ uncapped).2
    obtain ⟨_, others', sound, aligned⟩ := aligned_run_of_booted booted run divides
    obtain rfl := wholeLast.holds.unique sound.holds
    have first := whole.toSound.blocksAligned_iff.mp ((booted_aligned_iff booted).mpr divides)
    exact (recovered_iff whole.toSound sound.holds).mpr
      (wholeLast.eq_cut aligned.free none cut first.free)

theorem recovered_served : ∃ client trace last, Booted bootManager bootMemory 4 6 client ∧
    Run (Step bootManager) client trace last ∧
    trace.map Prod.snd =
      [.alloc 3, .alloc 1, .alloc 1, .free ⟨8, 1⟩, .free ⟨4, 3⟩, .free ⟨9, 1⟩] ∧
    Recovered bootLayout client last := by
  obtain ⟨client, trace, last, booted, run, labels, none⟩ := aligned_run
  exact ⟨client, trace, last, booted, run, labels,
    (recovered_of_empty booted run (by decide) none).mpr (small_run booted run (by decide))⟩

/-! A region that is not aligned. -/

/-- What an allocation answers, computed. -/
def answer (memory : BuddyMemory) (count : Nat) : Option (Option Nat) :=
  (buddyAllocPages bootLayout memory count 60).toOption.map Prod.fst

theorem answer_returns {count : Nat} {reply : Option Nat} (found : answer memory count = some reply) :
    ∃ after, Returns (buddyAllocPages bootLayout memory count) (reply, after) := by
  cases result : buddyAllocPages bootLayout memory count 60 with
  | error stop => simp [answer, result, Except.toOption] at found
  | ok pair =>
      obtain ⟨page, after⟩ := pair
      simp only [answer, result, Except.toOption, Option.map_some, Option.some.injEq] at found
      subst found
      exact ⟨after, (allocPages_steady memory count).returns result⟩

/-- A single page of the block at page 1 is taken and given back, and two pages at once are no
longer to be had. -/
theorem odd_region_not_recovered : ∃ client trace last,
    Booted bootManager bootMemory 1 2 client ∧ Run (Step bootManager) client trace last ∧
    trace.map Prod.snd = [.alloc 1, .free ⟨1, 1⟩] ∧ last.outstanding = [] ∧
    ¬ Recovered bootLayout client last := by
  have granted : (script bootManager 60 (fun _ _ => true) bootMemory 1 2 []).toOption.any
      (fun client => answer client.memory 2 = some (some 1)) = true := by
    decide +kernel
  have refused : (script bootManager 60 (fun _ _ => true) bootMemory 1 2
      [.alloc 1, .free ⟨1, 1⟩]).toOption.any
        (fun last => last.outstanding = [] ∧ answer last.memory 2 = some none) = true := by
    decide +kernel
  obtain ⟨client, trace, last, booted, run, labels, _, refused⟩ :=
    script_run (steady bootLayout) _ refused
  obtain ⟨none, refused⟩ := of_decide_eq_true refused
  refine ⟨client, trace, last, booted, run, labels, none, fun recovered => ?_⟩
  obtain ⟨again, emptyTrace, _, bootedAgain, stay, noLabels, _, granted⟩ :=
    script_run (steady bootLayout) _ granted
  obtain rfl := List.map_eq_nil_iff.mp noLabels
  cases stay
  rw [bootedAgain.unique booted] at granted
  obtain ⟨after, atBoot⟩ := answer_returns (of_decide_eq_true granted)
  obtain ⟨page, after', atEnd⟩ := recovered.satisfiable 2 1 after atBoot
  obtain ⟨_, missed⟩ := answer_returns refused
  cases atEnd.unique missed

end Ucore.Mm.Buddy
