import Ucore.Data.Confluence
import Ucore.Mm.Buddy.Steady
import Mathlib.Data.List.Perm.Subperm

namespace Ucore.Mm.Buddy

open Ucore.Data Ucore.Libs Extent Block

/-! Merging: partners are never left apart, and frees commute. -/

variable {layout : Layout} {memory : BuddyMemory} {client last : Client BuddyMemory}
  {free : Finset Block} {base n : Nat} {trace : List (Client BuddyMemory × Request)}
  {a b : Allocation}

/-- No list below the top order holds a block together with its partner. -/
def EagerlyCoalesced (layout : Layout) (client : Client BuddyMemory) : Prop :=
  ∀ order < MAX_ORDER, ∃ starts, FreeListOf layout client.memory order starts ∧
    ∀ i ∈ starts, ∀ j ∈ starts, j ≠ i ^^^ 2 ^ order

theorem Sound.eagerlyCoalesced (sound : Sound layout base n client free) :
    EagerlyCoalesced layout client := by
  intro order below
  obtain ⟨lists, shown⟩ := sound.holds.freeLists
  obtain ⟨freeList, _, members⟩ := shown order (Nat.le_of_lt below)
  refine ⟨_, freeList, fun i member j partner isPartner => ?_⟩
  rw [isPartner] at partner
  exact sound.consistent.coalesced ⟨i, order⟩ ((members i).mp member) below
    ((members _).mp partner)

theorem eager_coalescing (booted : Booted (buddyPmmManager layout) memory base n client)
    (run : Run (Step (buddyPmmManager layout)) client trace last) :
    (∀ taken ∈ trace, EagerlyCoalesced layout taken.1) ∧ EagerlyCoalesced layout last := by
  obtain ⟨passed, free, sound⟩ := sound_run booted run
  refine ⟨fun taken member => ?_, sound.eagerlyCoalesced⟩
  obtain ⟨free, sound⟩ := passed taken member
  exact sound.eagerlyCoalesced

theorem eager_coalescing_served : ∃ client trace last, Booted bootManager bootMemory 1 7 client ∧
    Run (Step bootManager) client trace last ∧
    trace.map Prod.snd = [.alloc 3, .alloc 1, .alloc 1] ∧
    (∀ taken ∈ trace, EagerlyCoalesced bootLayout taken.1) ∧ EagerlyCoalesced bootLayout last := by
  obtain ⟨client, trace, last, booted, run, labels, _⟩ := unaligned_run
  exact ⟨client, trace, last, booted, run, labels, eager_coalescing booted run⟩

/-! The order of frees. -/

theorem Consistent.apart₂ {outstanding : List Allocation}
    (consistent : Consistent base n free outstanding) (first : a ∈ outstanding)
    (second : b ∈ outstanding) (different : a ≠ b) :
    Apart₂ free (blockOf a) (blockOf b) := by
  intro point
  have all := consistent.once point
  rw [cover_owned_erase first,
    cover_owned_erase ((List.mem_erase_of_ne different.symm).mpr second)] at all
  omega

theorem Sound.free_free (sound : Sound layout base n client free) (first : a ∈ client.outstanding)
    (second : b ∈ client.outstanding) (different : a ≠ b) :
    ∃ middle after, Returns (buddyFreePages layout client.memory a.page a.count) middle ∧
      Returns (buddyFreePages layout middle b.page b.count) after ∧
      Holds layout after (release (MAX_ORDER - (blockOf b).order)
        (release (MAX_ORDER - (blockOf a).order) free (blockOf a)) (blockOf b)) := by
  obtain ⟨middle, returns, released⟩ := sound.free_returns first
  have next : Sound layout base n ⟨middle, client.outstanding.erase a⟩ _ :=
    ⟨released, sound.consistent.move (.release first)⟩
  obtain ⟨after, returnsNext, releasedNext⟩ :=
    next.free_returns ((List.mem_erase_of_ne different.symm).mpr second)
  exact ⟨middle, after, returns, returnsNext, releasedNext⟩

/-- Freeing two blocks in either order leads to the same counter and the same lists. -/
theorem frees_commute (booted : Booted (buddyPmmManager layout) memory base n client)
    (run : Run (Step (buddyPmmManager layout)) client trace last) (first : a ∈ last.outstanding)
    (second : b ∈ last.outstanding) (different : a ≠ b) :
    ∃ afterA afterAB afterB afterBA,
      Returns (buddyFreePages layout last.memory a.page a.count) afterA ∧
      Returns (buddyFreePages layout afterA b.page b.count) afterAB ∧
      Returns (buddyFreePages layout last.memory b.page b.count) afterB ∧
      Returns (buddyFreePages layout afterB a.page a.count) afterBA ∧
      buddyNrFreePages afterAB = buddyNrFreePages afterBA ∧ SameBlocks layout afterAB afterBA := by
  obtain ⟨_, free, sound⟩ := sound_run booted run
  obtain ⟨afterA, afterAB, freeA, freeAB, holdsAB⟩ := sound.free_free first second different
  obtain ⟨afterB, afterBA, freeB, freeBA, holdsBA⟩ := sound.free_free second first different.symm
  have boundA := sound.consistent.outstanding_le a first
  have boundB := sound.consistent.outstanding_le b second
  have levels : (blockOf a).order + (MAX_ORDER - (blockOf a).order) =
      (blockOf b).order + (MAX_ORDER - (blockOf b).order) := by omega
  rw [release_comm (sound.consistent.apart₂ first second different) levels] at holdsAB
  refine ⟨afterA, afterAB, afterB, afterBA, freeA, freeAB, freeB, freeBA, ?_,
    (holdsAB.sameBlocks_iff holdsBA).mpr rfl⟩
  exact holdsAB.nrFree.trans holdsBA.nrFree.symm

theorem frees_commute_served : ∃ client trace last, Booted bootManager bootMemory 1 7 client ∧
    Run (Step bootManager) client trace last ∧
    trace.map Prod.snd = [.alloc 3, .alloc 1, .alloc 1] ∧
    ∃ afterA afterAB afterB afterBA,
      Returns (buddyFreePages bootLayout last.memory 1 3) afterA ∧
      Returns (buddyFreePages bootLayout afterA 5 1) afterAB ∧
      Returns (buddyFreePages bootLayout last.memory 5 1) afterB ∧
      Returns (buddyFreePages bootLayout afterB 1 3) afterBA ∧
      buddyNrFreePages afterAB = buddyNrFreePages afterBA ∧
      SameBlocks bootLayout afterAB afterBA := by
  obtain ⟨client, trace, last, booted, run, labels, outstanding⟩ := unaligned_run
  have first : ⟨1, 3⟩ ∈ last.outstanding := by simp [outstanding]
  have second : ⟨5, 1⟩ ∈ last.outstanding := by simp [outstanding]
  exact ⟨client, trace, last, booted, run, labels,
    frees_commute booted run first second (by decide)⟩

/-! Any number of frees. -/

/-- What frees in this order make of the free blocks. -/
def releaseAll (free : Finset Block) (order : List Allocation) : Finset Block :=
  order.foldl
    (fun free allocation => release (MAX_ORDER - (blockOf allocation).order) free (blockOf allocation))
    free

variable {order other outstanding : List Allocation}

theorem chosen_cons (chosen : (a :: order).Subperm outstanding) :
    a ∈ outstanding ∧ order.Subperm (outstanding.erase a) := by
  refine ⟨chosen.subset (List.mem_cons_self ..), ?_⟩
  have fewer := chosen.erase a
  rwa [List.erase_cons_head] at fewer

theorem Consistent.frees_swap (consistent : Consistent base n free outstanding)
    (chosen : (b :: a :: order).Subperm outstanding) :
    releaseAll free (b :: a :: order) = releaseAll free (a :: b :: order) := by
  obtain ⟨first, rest⟩ := chosen_cons chosen
  obtain ⟨second, _⟩ := chosen_cons rest
  have apart : Apart₂ free (blockOf b) (blockOf a) := by
    intro point
    have all := consistent.once point
    rw [cover_owned_erase first, cover_owned_erase second] at all
    omega
  have levels : (blockOf b).order + (MAX_ORDER - (blockOf b).order) =
      (blockOf a).order + (MAX_ORDER - (blockOf a).order) := by
    have boundB := consistent.outstanding_le b first
    have boundA := consistent.outstanding_le a (List.mem_of_mem_erase second)
    omega
  simp only [releaseAll, List.foldl_cons, release_comm apart levels]

theorem Consistent.releaseAll_perm (consistent : Consistent base n free outstanding)
    (chosen : order.Subperm outstanding) (perm : order.Perm other) :
    releaseAll free order = releaseAll free other := by
  induction perm generalizing free outstanding with
  | nil => rfl
  | cons allocation _ ih =>
      obtain ⟨member, rest⟩ := chosen_cons chosen
      exact ih (consistent.move (.release member)) rest
  | swap => exact consistent.frees_swap chosen
  | trans first _ left right =>
      exact (left consistent chosen).trans (right consistent (first.subperm_right.mp chosen))

theorem Sound.frees_run (sound : Sound layout base n client free)
    (chosen : order.Subperm client.outstanding) : ∃ trace last,
      Run (Step (buddyPmmManager layout)) client trace last ∧
      trace.map Prod.snd = order.map Request.free ∧
      Holds layout last.memory (releaseAll free order) := by
  induction order generalizing client free with
  | nil => exact ⟨[], client, .done client, rfl, sound.holds⟩
  | cons allocation order ih =>
      obtain ⟨member, rest⟩ := chosen_cons chosen
      obtain ⟨memory, outstanding⟩ := client
      obtain ⟨after, returns, released⟩ := sound.free_returns member
      have next : Sound layout base n ⟨after, outstanding.erase allocation⟩ _ :=
        ⟨released, sound.consistent.move (.release member)⟩
      obtain ⟨trace, last, run, labels, holds⟩ := ih next rest
      exact ⟨_, last, .step (.freed member returns) run, by rw [List.map_cons, labels, List.map_cons],
        holds⟩

/-- Whatever blocks are freed, their order makes no difference to the counter and the lists. -/
theorem frees_in_any_order (booted : Booted (buddyPmmManager layout) memory base n client)
    (run : Run (Step (buddyPmmManager layout)) client trace last)
    (chosen : order.Subperm last.outstanding) (perm : order.Perm other) :
    ∃ first final second finalOther,
      Run (Step (buddyPmmManager layout)) last first final ∧
      first.map Prod.snd = order.map Request.free ∧
      Run (Step (buddyPmmManager layout)) last second finalOther ∧
      second.map Prod.snd = other.map Request.free ∧
      buddyNrFreePages final.memory = buddyNrFreePages finalOther.memory ∧
      SameBlocks layout final.memory finalOther.memory := by
  obtain ⟨_, free, sound⟩ := sound_run booted run
  obtain ⟨first, final, runFirst, labels, holds⟩ := sound.frees_run chosen
  obtain ⟨second, finalOther, runSecond, labelsOther, holdsOther⟩ :=
    sound.frees_run (perm.subperm_right.mp chosen)
  have same := sound.consistent.releaseAll_perm chosen perm
  exact ⟨first, final, second, finalOther, runFirst, labels, runSecond, labelsOther,
    holds.nrFree.trans (same ▸ holdsOther.nrFree.symm), (holds.sameBlocks_iff holdsOther).mpr same⟩

theorem frees_in_any_order_served : ∃ client trace last first final second finalOther,
    Booted bootManager bootMemory 1 7 client ∧ Run (Step bootManager) client trace last ∧
    trace.map Prod.snd = [.alloc 3, .alloc 1, .alloc 1] ∧
    Run (Step bootManager) last first final ∧
    first.map Prod.snd = [.free ⟨5, 1⟩, .free ⟨7, 1⟩, .free ⟨1, 3⟩] ∧
    Run (Step bootManager) last second finalOther ∧
    second.map Prod.snd = [.free ⟨7, 1⟩, .free ⟨1, 3⟩, .free ⟨5, 1⟩] ∧
    buddyNrFreePages final.memory = buddyNrFreePages finalOther.memory ∧
    SameBlocks bootLayout final.memory finalOther.memory := by
  obtain ⟨client, trace, last, booted, run, labels, outstanding⟩ := unaligned_run
  have rotated : last.outstanding.Perm [⟨7, 1⟩, ⟨1, 3⟩, ⟨5, 1⟩] := by
    rw [outstanding]
    decide
  obtain ⟨first, final, second, finalOther, agree⟩ :=
    frees_in_any_order booted run (List.Subperm.refl _) rotated
  rw [outstanding] at agree
  exact ⟨client, trace, last, first, final, second, finalOther, booted, run, labels, agree⟩

end Ucore.Mm.Buddy
