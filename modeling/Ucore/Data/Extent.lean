import Mathlib.Algebra.BigOperators.Group.Finset.Piecewise
import Mathlib.Algebra.Order.BigOperators.Group.Finset
import Mathlib.Order.Interval.Finset.Nat

namespace Ucore.Data

/-! Extents of consecutive numbers and how often they cover each number.

Covering is additive, so an operation that cuts an extent, joins two or hands
one over is checked one number at a time.  Disjointness and exact tiling are
then read off from the counts.
-/

structure Extent where
  start : Nat
  size : Nat
deriving DecidableEq, Repr

namespace Extent

variable {extent region first second : Extent} {extents others : Multiset Extent} {point : Nat}

def points (extent : Extent) : Finset Nat :=
  Finset.Ico extent.start (extent.start + extent.size)

@[simp] theorem mem_points :
    point ∈ extent.points ↔ extent.start ≤ point ∧ point < extent.start + extent.size :=
  Finset.mem_Ico

@[simp] theorem card_points (extent : Extent) : extent.points.card = extent.size := by
  simp [points]

theorem disjoint_iff : Disjoint first.points second.points ↔
    ∀ point, point ∈ first.points → point ∉ second.points :=
  Finset.disjoint_left

/-- How many of the extents contain the point. -/
def cover (extents : Multiset Extent) (point : Nat) : Nat :=
  extents.countP (point ∈ ·.points)

def total (extents : Multiset Extent) : Nat :=
  (extents.map size).sum

/-- No point is covered twice and no point outside the region is covered. -/
def Packs (extents : Multiset Extent) (region : Extent) : Prop :=
  ∀ point, cover extents point ≤ cover {region} point

/-- Every point of the region is covered once and no other point is. -/
def Tiles (extents : Multiset Extent) (region : Extent) : Prop :=
  ∀ point, cover extents point = cover {region} point

@[simp] theorem cover_zero : cover 0 point = 0 := rfl

@[simp] theorem cover_add : cover (extents + others) point = cover extents point + cover others point :=
  Multiset.countP_add _ _ _

theorem cover_singleton : cover {extent} point = if point ∈ extent.points then 1 else 0 := by
  simp only [cover, ← Multiset.cons_zero, Multiset.countP_cons, Multiset.countP_zero, zero_add]

theorem cover_cons : cover (extent ::ₘ extents) point = cover {extent} point + cover extents point := by
  rw [← Multiset.singleton_add, cover_add]

theorem cover_singleton_le_one : cover {extent} point ≤ 1 := by
  rw [cover_singleton]
  split <;> omega

theorem cover_pos : 0 < cover extents point ↔ ∃ extent ∈ extents, point ∈ extent.points :=
  Multiset.countP_pos

theorem cover_cut (start left right : Nat) :
    cover {⟨start, left + right⟩} point =
      cover {⟨start, left⟩} point + cover {⟨start + left, right⟩} point := by
  simp only [cover_singleton, mem_points]
  split_ifs <;> omega

theorem cover_join (touch : first.start + first.size = second.start) :
    cover {⟨first.start, first.size + second.size⟩} point = cover {first} point + cover {second} point := by
  rw [cover_cut, touch]

@[simp] theorem cover_empty (start : Nat) : cover {⟨start, 0⟩} point = 0 := by
  rw [cover_singleton, if_neg (by simp)]

@[simp] theorem total_zero : total 0 = 0 := rfl

@[simp] theorem total_add : total (extents + others) = total extents + total others := by
  simp [total]

@[simp] theorem total_cons : total (extent ::ₘ extents) = extent.size + total extents := by
  simp [total]

theorem Tiles.packs (tiles : Tiles extents region) : Packs extents region :=
  fun point => (tiles point).le

theorem Tiles.mem_iff (tiles : Tiles extents region) :
    (∃ extent ∈ extents, point ∈ extent.points) ↔ point ∈ region.points := by
  rw [← cover_pos, tiles point, cover_pos]
  simp

theorem Packs.subset (packs : Packs extents region) (member : extent ∈ extents) :
    extent.points ⊆ region.points := by
  intro point inside
  have covered := cover_pos.mpr ⟨extent, member, inside⟩
  simpa using cover_pos.mp (lt_of_lt_of_le covered (packs point))

theorem Packs.mono (packs : Packs extents region) (fewer : ∀ point, cover others point ≤ cover extents point) :
    Packs others region :=
  fun point => (fewer point).trans (packs point)

/-- Extents are disjoint exactly when no point is covered twice. -/
theorem pairwise_iff {list : List Extent} :
    (list.Pairwise fun first second => Disjoint first.points second.points) ↔
      ∀ point, cover list point ≤ 1 := by
  induction list with
  | nil => simp
  | cons first rest ih =>
      rw [List.pairwise_cons, ih, ← Multiset.cons_coe]
      constructor
      · intro apart point
        have restOnce := apart.2 point
        rw [cover_cons, cover_singleton]
        by_cases inFirst : point ∈ first.points
        · have away : ¬ 0 < cover rest point := by
            rw [cover_pos]
            intro found
            obtain ⟨second, member, inSecond⟩ := found
            exact disjoint_iff.mp (apart.1 second (Multiset.mem_coe.mp member)) point inFirst inSecond
          rw [if_pos inFirst]
          omega
        · rw [if_neg inFirst]
          omega
      · intro once
        refine ⟨fun second member => disjoint_iff.mpr fun point inFirst inSecond => ?_, fun point => ?_⟩
        · have again := cover_pos.mpr ⟨second, Multiset.mem_coe.mpr member, inSecond⟩
          have twice := once point
          rw [cover_cons, cover_singleton, if_pos inFirst] at twice
          omega
        · have all := once point
          rw [cover_cons] at all
          omega

theorem Packs.pairwise {list : List Extent} (packs : Packs list region) :
    list.Pairwise fun first second => Disjoint first.points second.points :=
  pairwise_iff.mpr fun point => (packs point).trans cover_singleton_le_one

/-- Adding up the cover over a set that holds all extents adds up their sizes. -/
theorem sum_cover {set : Finset Nat} (inside : ∀ extent ∈ extents, extent.points ⊆ set) :
    ∑ point ∈ set, cover extents point = total extents := by
  induction extents using Multiset.induction with
  | empty => simp
  | cons extent extents ih =>
      have single : ∑ point ∈ set, cover {extent} point = extent.size := by
        simp only [cover_singleton]
        rw [Finset.sum_ite_mem, Finset.inter_eq_right.mpr (inside extent (by simp))]
        simp
      simp only [cover_cons, Finset.sum_add_distrib, total_cons, single]
      rw [ih fun other member => inside other (by simp [member])]

theorem total_mono (fewer : ∀ point, cover others point ≤ cover extents point) :
    total others ≤ total extents := by
  have inside : ∀ extent ∈ extents + others,
      extent.points ⊆ (extents + others).toFinset.biUnion points := fun extent member =>
    Finset.subset_biUnion_of_mem points (Multiset.mem_toFinset.mpr member)
  rw [← sum_cover fun extent member => inside extent (Multiset.mem_add.mpr (.inl member)),
    ← sum_cover fun extent member => inside extent (Multiset.mem_add.mpr (.inr member))]
  exact Finset.sum_le_sum fun point _ => fewer point

theorem total_congr (same : ∀ point, cover extents point = cover others point) :
    total extents = total others :=
  Nat.le_antisymm (total_mono fun point => (same point).le) (total_mono fun point => (same point).ge)

theorem total_singleton (extent : Extent) : total {extent} = extent.size := by
  rw [← Multiset.cons_zero, total_cons, total_zero, Nat.add_zero]

theorem Packs.total_le (packs : Packs extents region) : total extents ≤ region.size :=
  (total_mono packs).trans (total_singleton region).le

theorem Tiles.total_eq (tiles : Tiles extents region) : total extents = region.size :=
  (total_congr tiles).trans (total_singleton region)

end Extent

end Ucore.Data
