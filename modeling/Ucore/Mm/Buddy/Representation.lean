import Ucore.Mm.Buddy.Conservation
import Ucore.Mm.Buddy.Overlap

namespace Ucore.Mm.Buddy

open Ucore.Data Ucore.Libs Extent Block

/-! The lists, the descriptors in the pages and the counter agree. -/

structure Represents (layout : Layout) (memory : BuddyMemory) (lists : Nat → List Nat) : Prop
    extends Lists layout memory lists where
  once : ((List.range (MAX_ORDER + 1)).flatMap lists).Nodup
  nrFree : memory.nrFree = ∑ order ∈ Finset.range (MAX_ORDER + 1), 2 ^ order * (lists order).length

variable {layout : Layout} {memory : BuddyMemory} {client last : Client BuddyMemory}
  {free : Finset Block} {base n : Nat} {trace : List (Client BuddyMemory × Request)}
  {lists : Nat → List Nat}

theorem Lists.heads_nodup (stored : Lists layout memory lists) :
    ((List.range (MAX_ORDER + 1)).flatMap lists).Nodup := by
  apply List.nodup_flatMap.mpr
  constructor
  · intro order member
    have bound := Nat.le_of_lt_succ (List.mem_range.mp member)
    exact (stored.isList order bound).nodup.of_cons.of_map
  · have bounded : ∀ order ∈ List.range (MAX_ORDER + 1), order ≤ MAX_ORDER :=
      fun order member => Nat.le_of_lt_succ (List.mem_range.mp member)
    apply List.nodup_range.imp_of_mem
    intro order other first second different start inFirst
    exact stored.notMem_other (bounded order first) (bounded other second) different inFirst

theorem total_orders (lists : Nat → List Nat) (orders : Nat) :
    total ((List.range orders).flatMap fun order =>
        (lists order).map fun start => extent ⟨start, order⟩ : List Extent) =
      ∑ order ∈ Finset.range orders, 2 ^ order * (lists order).length := by
  induction orders with
  | zero => rfl
  | succ orders ih =>
      rw [List.range_succ, List.flatMap_append, ← Multiset.coe_add, total_add, ih,
        Finset.sum_range_succ]
      simp [total, extent, Function.comp_def, Nat.mul_comm]

theorem total_listedBlocks (lists : Nat → List Nat) :
    total ((listedBlocks lists).map extent : List Extent) =
      ∑ order ∈ Finset.range (MAX_ORDER + 1), 2 ^ order * (lists order).length := by
  rw [← total_orders, listedBlocks, List.map_flatMap]
  simp only [List.map_map, Function.comp_def]

theorem Holds.represents (holds : Holds layout memory free) (fits : total (extents free) < 2 ^ 32) :
    ∃ lists, Represents layout memory lists ∧ (listedBlocks lists : Multiset Block) = free.val := by
  obtain ⟨lists, stored, members⟩ := holds.lists
  have distinct : ∀ order ≤ MAX_ORDER, (lists order).Nodup :=
    fun order bound => (stored.isList order bound).nodup.of_cons.of_map
  have all := holds.listedBlocks_eq distinct fun order bound start => by
    rw [members]
    exact (and_iff_right bound).symm
  refine ⟨lists, ⟨stored, stored.heads_nodup, ?_⟩, all⟩
  rw [holds.nrFree, uint32_of_lt fits, extents, ← all, Multiset.map_coe, total_listedBlocks]

theorem Sound.represents (sound : Sound layout base n client free) (fits : n < 2 ^ 32) :
    ∃ lists, Represents layout client.memory lists := by
  have within : total (extents free + ↑(owned client.outstanding)) ≤ n :=
    sound.consistent.packs.total_le
  rw [total_add] at within
  obtain ⟨lists, represents, _⟩ := sound.holds.represents (by omega)
  exact ⟨lists, represents⟩

/-- In every state that a run reaches. -/
theorem represents_run (fits : n < 2 ^ 32)
    (booted : Booted (buddyPmmManager layout) memory base n client)
    (run : Run (Step (buddyPmmManager layout)) client trace last) :
    ∃ lists, Represents layout last.memory lists := by
  obtain ⟨_, free, sound⟩ := sound_run booted run
  exact sound.represents fits

theorem represents_served : ∃ client trace last, Booted bootManager bootMemory 1 7 client ∧
    Run (Step bootManager) client trace last ∧
    trace.map Prod.snd = [.alloc 3, .alloc 1, .alloc 1] ∧
    ∃ lists, Represents bootLayout last.memory lists := by
  obtain ⟨client, trace, last, booted, run, labels, _⟩ := unaligned_run
  exact ⟨client, trace, last, booted, run, labels, represents_run (by decide) booted run⟩

end Ucore.Mm.Buddy
