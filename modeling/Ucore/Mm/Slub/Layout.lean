import Mathlib.Tactic.IntervalCases
import Ucore.Mm.Slub

namespace Ucore.Mm.Slub

open Ucore.Data

/-! Where the objects of a slab page lie. -/

/-- The object size of a cache. -/
def classSize (i : Nat) : Nat := 2 ^ (SLUB_MIN_SHIFT + i)

/-- How many objects `slab_page_init` makes room for. -/
def slotCount (i : Nat) : Nat := (PGSIZE - slabHeaderSize) / classSize i

def slot (sp i k : Nat) : Nat := slabAligned sp (classSize i) + k * classSize i

def slots (sp i : Nat) : List Nat := (List.range (slotCount i)).map (slot sp i)

/-- The distance of the first object from the start of the page. -/
def slotOffset (i : Nat) : Nat := max slabHeaderSize (classSize i)

variable {f g i k size address s : Nat}

theorem ncache : SLUB_NCACHE = 10 := rfl

theorem kva_lt (mapped : f < mappedPages) : kva f + PGSIZE ≤ 2 ^ 64 := by
  simp only [mappedPages] at mapped
  simp only [kva, mappedBase, PGSIZE]
  omega

theorem kva_ne_null (f : Nat) : kva f ≠ NULL := by
  simp only [kva, mappedBase, NULL]
  omega

theorem page_mask (mapped : f < mappedPages) (low : kva f ≤ address) (high : address < kva f + PGSIZE) :
    address &&& uint64Not (PGSIZE - 1) = kva f := by
  have width := kva_lt mapped
  have size : PGSIZE = 2 ^ 12 := rfl
  rw [size, and_uint64Not (by omega) (by decide)]
  simp only [kva, mappedBase, PGSIZE] at low high ⊢
  omega

theorem page_unique (inFirst : kva f ≤ address ∧ address < kva f + PGSIZE)
    (inSecond : kva g ≤ address ∧ address < kva g + PGSIZE) : f = g := by
  simp only [kva, mappedBase, PGSIZE] at inFirst inSecond
  omega

theorem slotCount_top : slotCount 9 = 0 := by decide

/-- Only the last cache has objects that do not fit behind the header. -/
theorem cache_of_slot (cache : i < SLUB_NCACHE) (inside : k < slotCount i) : i ≤ 8 := by
  rw [ncache] at cache
  have notTop : i ≠ 9 := by
    intro top
    rw [top, slotCount_top] at inside
    omega
  omega

theorem cache_of_mem {sp : Nat} (cache : i < SLUB_NCACHE) (member : address ∈ slots sp i) : i ≤ 8 := by
  obtain ⟨k, inside, _⟩ := List.mem_map.mp member
  exact cache_of_slot cache (List.mem_range.mp inside)

theorem slotCount_pos (cache : i ≤ 8) : 0 < slotCount i := by
  interval_cases i <;> decide

theorem header_le_slotOffset (i : Nat) : slabHeaderSize ≤ slotOffset i := Nat.le_max_left _ _

theorem link_le_classSize (i : Nat) : objNext.width ≤ classSize i := by
  have power : 2 ^ 3 ≤ 2 ^ (3 + i) := Nat.pow_le_pow_right (by decide) (by omega)
  exact power

theorem slots_fit (cache : i ≤ 8) : slotOffset i + slotCount i * classSize i ≤ PGSIZE := by
  interval_cases i <;> decide

theorem slot_end (cache : i ≤ 8) (inside : k < slotCount i) :
    slotOffset i + k * classSize i + classSize i ≤ PGSIZE := by
  have fit := slots_fit cache
  have within : (k + 1) * classSize i ≤ slotCount i * classSize i :=
    Nat.mul_le_mul_right _ inside
  rw [Nat.add_one_mul] at within
  omega

theorem slabAligned_kva (cache : i ≤ 8) (mapped : f < mappedPages) :
    slabAligned (kva f) (classSize i) = kva f + slotOffset i := by
  have width := kva_lt mapped
  have size : classSize i ≤ 2 ^ 11 := by
    apply Nat.pow_le_pow_right (by decide)
    simp only [SLUB_MIN_SHIFT]
    omega
  have positive : 0 < classSize i := Nat.two_pow_pos _
  have fits : kva f + slabHeaderSize + classSize i - 1 < 2 ^ 64 := by
    simp only [PGSIZE, slabHeaderSize] at *
    omega
  have bits : SLUB_MIN_SHIFT + i ≤ 64 := by
    simp only [SLUB_MIN_SHIFT]
    omega
  have masked := and_uint64Not fits bits
  rw [slabAligned, uint64_of_lt fits]
  refine masked.trans ?_
  simp only [kva, mappedBase, PGSIZE, slabHeaderSize, slotOffset, classSize, SLUB_MIN_SHIFT]
  interval_cases i <;> omega

theorem slot_eq (cache : i ≤ 8) (mapped : f < mappedPages) (k : Nat) :
    slot (kva f) i k = kva f + slotOffset i + k * classSize i := by
  rw [slot, slabAligned_kva cache mapped]

theorem mem_slots (cache : i ≤ 8) (mapped : f < mappedPages) : address ∈ slots (kva f) i ↔
    ∃ k < slotCount i, address = kva f + slotOffset i + k * classSize i := by
  simp only [slots, List.mem_map, List.mem_range, slot_eq cache mapped]
  constructor
  · intro found
    obtain ⟨k, inside, same⟩ := found
    exact ⟨k, inside, same.symm⟩
  · intro found
    obtain ⟨k, inside, same⟩ := found
    exact ⟨k, inside, same.symm⟩

theorem slots_length (sp i : Nat) : (slots sp i).length = slotCount i := by
  rw [slots, List.length_map, List.length_range]

theorem slots_nodup (sp i : Nat) : (slots sp i).Nodup := by
  apply List.nodup_range.map
  intro first second same
  have positive : 0 < classSize i := Nat.two_pow_pos _
  simp only [slot] at same
  exact Nat.eq_of_mul_eq_mul_right positive (Nat.add_left_cancel same)

theorem slot_bounds (cache : i < SLUB_NCACHE) (mapped : f < mappedPages)
    (member : address ∈ slots (kva f) i) :
    kva f + slabHeaderSize ≤ address ∧ address + classSize i ≤ kva f + PGSIZE := by
  have order := cache_of_mem cache member
  obtain ⟨k, inside, rfl⟩ := (mem_slots order mapped).mp member
  have header := header_le_slotOffset i
  have fits := slot_end order inside
  omega

/-- The first word of a slot, which is the link of a free object. -/
theorem slot_link (cache : i < SLUB_NCACHE) (mapped : f < mappedPages)
    (member : address ∈ slots (kva f) i) :
    kva f + slabHeaderSize ≤ address ∧ address + objNext.width ≤ kva f + PGSIZE := by
  have bounds := slot_bounds cache mapped member
  have link := link_le_classSize i
  omega

theorem slot_apart (cache : i < SLUB_NCACHE) (mapped : f < mappedPages) {other : Nat}
    (first : address ∈ slots (kva f) i) (second : other ∈ slots (kva f) i) (different : address ≠ other) :
    address + classSize i ≤ other ∨ other + classSize i ≤ address := by
  have order := cache_of_mem cache first
  obtain ⟨k, _, rfl⟩ := (mem_slots order mapped).mp first
  obtain ⟨m, _, rfl⟩ := (mem_slots order mapped).mp second
  rcases Nat.lt_trichotomy k m with below | same | above
  · have gap : (k + 1) * classSize i ≤ m * classSize i := Nat.mul_le_mul_right _ below
    rw [Nat.add_one_mul] at gap
    omega
  · exact absurd (by rw [same]) different
  · have gap : (m + 1) * classSize i ≤ k * classSize i := Nat.mul_le_mul_right _ above
    rw [Nat.add_one_mul] at gap
    omega

/-! The cache of a size. -/

theorem sizeToIndexLoop_spec (size : Nat) (rounds i : Nat) (bound : i + rounds ≤ 9) :
    let found := sizeToIndexLoop size rounds (classSize i) i
    i ≤ found ∧ found ≤ i + rounds ∧ (i < found → classSize (found - 1) < size) ∧
      (found < i + rounds → size ≤ classSize found) := by
  induction rounds generalizing i with
  | zero => exact ⟨Nat.le_refl _, Nat.le_refl _, fun below => absurd below (Nat.lt_irrefl _),
      fun below => absurd below (Nat.lt_irrefl _)⟩
  | succ rounds ih =>
      have doubled : uint64 (classSize i <<< 1) = classSize (i + 1) := by
        have small : 2 ^ (3 + (i + 1)) < 2 ^ 64 := Nat.pow_lt_pow_right (by decide) (by omega)
        rw [Nat.shiftLeft_eq, classSize, ← Nat.pow_add_one, Nat.add_assoc]
        exact uint64_of_lt small
      obtain ⟨above, below, larger, enough⟩ := ih (i + 1) (by omega)
      simp only [sizeToIndexLoop, doubled]
      split
      · rename_i small
        refine ⟨by omega, by omega, fun _ => ?_, fun before => enough (by omega)⟩
        rcases Nat.eq_or_lt_of_le above with same | later
        · rw [← same]
          exact small
        · exact larger later
      · rename_i fits
        exact ⟨Nat.le_refl _, by omega, fun below => absurd below (Nat.lt_irrefl _),
          fun _ => Nat.le_of_not_lt fits⟩

theorem sizeToIndex_spec (small : size ≤ 4096) :
    sizeToIndex size < SLUB_NCACHE ∧ size ≤ classSize (sizeToIndex size) ∧
      (sizeToIndex size = 9 ↔ 2048 < size) := by
  have found : 0 ≤ sizeToIndex size ∧ sizeToIndex size ≤ 0 + 9 ∧
      (0 < sizeToIndex size → classSize (sizeToIndex size - 1) < size) ∧
      (sizeToIndex size < 0 + 9 → size ≤ classSize (sizeToIndex size)) :=
    sizeToIndexLoop_spec size 9 0 (by decide)
  generalize sizeToIndex size = index at found ⊢
  obtain ⟨_, below, larger, enough⟩ := found
  rw [ncache]
  rcases Nat.lt_or_ge index 9 with early | late
  · have fits := enough (by omega)
    have cap : classSize index ≤ 2 ^ 11 := by
      apply Nat.pow_le_pow_right (by decide)
      simp only [SLUB_MIN_SHIFT]
      omega
    exact ⟨by omega, fits, by omega⟩
  · have top : index = 9 := by omega
    subst top
    have more := larger (by decide)
    have last : classSize 8 = 2048 := rfl
    have whole : classSize 9 = 4096 := rfl
    simp only [Nat.reduceSub] at more
    exact ⟨by omega, by omega, by omega⟩

end Ucore.Mm.Slub
