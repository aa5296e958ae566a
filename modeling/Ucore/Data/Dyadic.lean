import Ucore.Data.Extent
import Mathlib.Data.Nat.Bitwise

namespace Ucore.Data

open Extent

/-! Blocks of `2 ^ order` consecutive numbers and their partners.

The partner of a block is found by flipping one bit of its start, whether or
not the start is a multiple of the block's size.  A block and its partner touch
in either case, so they can be merged into one block of the next order.
-/

structure Block where
  start : Nat
  order : Nat
deriving DecidableEq, Repr

namespace Block

variable {block other : Block} {point : Nat}

def extent (block : Block) : Extent := ⟨block.start, 2 ^ block.order⟩

def partner (block : Block) : Block := ⟨block.start ^^^ 2 ^ block.order, block.order⟩

def merge (block : Block) : Block :=
  ⟨min block.start (block.start ^^^ 2 ^ block.order), block.order + 1⟩

def Aligned (block : Block) : Prop := 2 ^ block.order ∣ block.start

instance (block : Block) : Decidable block.Aligned :=
  inferInstanceAs (Decidable (2 ^ block.order ∣ block.start))

@[simp] theorem partner_order (block : Block) : block.partner.order = block.order := rfl

@[simp] theorem merge_order (block : Block) : block.merge.order = block.order + 1 := rfl

@[simp] theorem partner_partner (block : Block) : block.partner.partner = block := by
  simp only [partner, Nat.xor_xor_cancel_right]

theorem partner_eq_comm : block.partner = other ↔ other.partner = block := by
  constructor
  · intro same
    subst same
    exact partner_partner block
  · intro same
    subst same
    exact partner_partner other

@[simp] theorem merge_partner (block : Block) : block.partner.merge = block.merge := by
  simp only [merge, partner, Nat.xor_xor_cancel_right, min_comm]

theorem start_mem (block : Block) : block.start ∈ block.extent.points :=
  mem_points.mpr ⟨le_rfl, Nat.lt_add_of_pos_right (Nat.two_pow_pos block.order)⟩

/-- Flipping a bit changes the parity of the quotient and keeps the rest. -/
theorem xor_two_pow_eq (start order : Nat) :
    start ^^^ 2 ^ order = 2 ^ order * (start / 2 ^ order ^^^ 1) + start % 2 ^ order := by
  have split := Nat.div_add_mod (start ^^^ 2 ^ order) (2 ^ order)
  rw [Nat.xor_div_two_pow, Nat.xor_mod_two_pow, Nat.div_self (Nat.two_pow_pos order),
    Nat.mod_self, Nat.xor_zero] at split
  exact split.symm

theorem partner_cases (block : Block) :
    (block.partner.start = block.start + 2 ^ block.order ∧ block.merge.start = block.start) ∨
      (block.start = block.partner.start + 2 ^ block.order ∧
        block.merge.start = block.partner.start) := by
  obtain ⟨start, order⟩ := block
  have split := Nat.div_add_mod start (2 ^ order)
  simp only [partner, merge, xor_two_pow_eq start order]
  cases Nat.even_or_odd (start / 2 ^ order) with
  | inl even =>
      rw [Nat.xor_one_of_even even, Nat.mul_add, Nat.mul_one]
      omega
  | inr odd =>
      rw [Nat.xor_one_of_odd odd]
      obtain ⟨half, isOdd⟩ := odd
      rw [isOdd, Nat.mul_add, Nat.mul_one] at split
      rw [isOdd, Nat.add_sub_cancel]
      omega

theorem partner_ne (block : Block) : block.partner ≠ block := by
  intro same
  have power : 0 < 2 ^ block.order := Nat.two_pow_pos _
  have start := congrArg Block.start same
  rcases block.partner_cases with ⟨above, _⟩ | ⟨below, _⟩ <;> omega

theorem cover_merge (block : Block) :
    cover {block.merge.extent} point =
      cover {block.extent} point + cover {block.partner.extent} point := by
  have size : block.merge.extent.size = 2 ^ block.order + 2 ^ block.order := by
    simp only [extent, merge_order, Nat.pow_succ, Nat.mul_two]
  rcases block.partner_cases with ⟨above, start⟩ | ⟨below, start⟩
  · have join := @cover_cut point block.start (2 ^ block.order) (2 ^ block.order)
    simp only [extent, partner_order, above, start, merge_order, Nat.pow_succ, Nat.mul_two]
    exact join
  · have join := @cover_cut point block.partner.start (2 ^ block.order) (2 ^ block.order)
    rw [← below] at join
    simp only [extent, partner_order, start, merge_order, Nat.pow_succ, Nat.mul_two]
    omega

theorem mem_merge (block : Block)
    (inside : point ∈ block.extent.points ∨ point ∈ block.partner.extent.points) :
    point ∈ block.merge.extent.points := by
  have positive : 0 < cover {block.merge.extent} point := by
    rw [cover_merge, cover_singleton, cover_singleton]
    rcases inside with own | others
    · rw [if_pos own]
      omega
    · rw [if_pos others]
      omega
  rw [cover_singleton] at positive
  by_contra outside
  rw [if_neg outside] at positive
  omega

/-! Aligned blocks. -/

theorem of_mem_merge (inside : point ∈ block.merge.extent.points) :
    point ∈ block.extent.points ∨ point ∈ block.partner.extent.points := by
  have halves := @cover_merge point block
  rw [cover_singleton, if_pos inside, cover_singleton, cover_singleton] at halves
  by_contra outside
  obtain ⟨notFirst, notSecond⟩ := not_or.mp outside
  rw [if_neg notFirst, if_neg notSecond] at halves
  cases halves

theorem Aligned.partner (aligned : block.Aligned) : block.partner.Aligned := by
  unfold Aligned at aligned ⊢
  rw [partner_order]
  rcases block.partner_cases with ⟨above, _⟩ | ⟨below, _⟩
  · rw [above]
    exact Nat.dvd_add aligned (Nat.dvd_refl _)
  · rw [below] at aligned
    exact (Nat.dvd_add_left (Nat.dvd_refl _)).mp aligned

theorem Aligned.merge (aligned : block.Aligned) : block.merge.Aligned := by
  obtain ⟨start, order⟩ := block
  obtain ⟨quotient, multiple⟩ := aligned
  simp only at multiple
  subst multiple
  have flipped : 2 ^ order * quotient ^^^ 2 ^ order = 2 ^ order * (quotient ^^^ 1) := by
    rw [xor_two_pow_eq, Nat.mul_div_cancel_left _ (Nat.two_pow_pos order), Nat.mul_mod_right,
      Nat.add_zero]
  simp only [Aligned, Block.merge, flipped, Nat.pow_succ]
  cases Nat.even_or_odd quotient with
  | inl even =>
      rw [Nat.xor_one_of_even even, min_eq_left (Nat.mul_le_mul_left _ (Nat.le_succ _))]
      exact Nat.mul_dvd_mul_left _ even.two_dvd
  | inr odd =>
      rw [Nat.xor_one_of_odd odd, min_eq_right (Nat.mul_le_mul_left _ (Nat.sub_le _ _))]
      obtain ⟨half, rfl⟩ := odd
      exact Nat.mul_dvd_mul_left _ ⟨half, by omega⟩

theorem Aligned.iterate_merge (aligned : block.Aligned) (level : Nat) :
    (Block.merge^[level] block).Aligned := by
  induction level with
  | zero => exact aligned
  | succ level ih =>
      rw [Function.iterate_succ_apply']
      exact ih.merge

/-- Two aligned blocks that share a number are nested. -/
theorem Aligned.nested (first : block.Aligned) (second : other.Aligned)
    (order : block.order ≤ other.order) (inFirst : point ∈ block.extent.points)
    (inSecond : point ∈ other.extent.points) : block.extent.points ⊆ other.extent.points := by
  obtain ⟨start, low⟩ := block
  obtain ⟨startOther, high⟩ := other
  obtain ⟨gap, isHigh⟩ := Nat.exists_eq_add_of_le order
  obtain ⟨quotient, multiple⟩ := first
  obtain ⟨quotientOther, multipleOther⟩ := second
  simp only at isHigh multiple multipleOther
  subst isHigh multiple multipleOther
  simp only [extent, mem_points, Nat.pow_add, Nat.mul_assoc] at inFirst inSecond
  have lower : 2 ^ gap * quotientOther ≤ quotient := by
    by_contra smaller
    have step : quotient + 1 ≤ 2 ^ gap * quotientOther := by omega
    have scaled := Nat.mul_le_mul_left (2 ^ low) step
    rw [Nat.mul_add, Nat.mul_one] at scaled
    omega
  have upper : quotient + 1 ≤ 2 ^ gap * quotientOther + 2 ^ gap := by
    by_contra larger
    have step : 2 ^ gap * quotientOther + 2 ^ gap ≤ quotient := by omega
    have scaled := Nat.mul_le_mul_left (2 ^ low) step
    rw [Nat.mul_add] at scaled
    omega
  have scaledLower := Nat.mul_le_mul_left (2 ^ low) lower
  have scaledUpper := Nat.mul_le_mul_left (2 ^ low) upper
  rw [Nat.mul_add, Nat.mul_add, Nat.mul_one] at scaledUpper
  intro page inside
  simp only [extent, mem_points, Nat.pow_add, Nat.mul_assoc] at inside ⊢
  omega

end Block

end Ucore.Data
