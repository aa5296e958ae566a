import Mathlib.Algebra.Group.Nat.Defs
import Ucore.Libs.List

namespace Ucore.Mm

/-! `kern/mm/memlayout.h`: page descriptors and their flags. -/

/-- `unsigned int`. -/
def uint32 (value : Nat) : Nat := value % 2 ^ 32

/-- `left - right` in `unsigned int`. -/
def uint32Sub (left right : Nat) : Nat := uint32 (left + 2 ^ 32 - uint32 right)

/-- A value converted to `int`. -/
def int32 (value : Nat) : Int := Int.bmod value (2 ^ 32)

/-- `struct Page` without its `page_link`, which lives in the heap of list entries. -/
structure Page where
  ref : Int
  flags : Nat
  property : Nat
deriving DecidableEq, Repr

def PG_reserved : Nat := 0

def PG_property : Nat := 1

/-! The flag macros, on the 64-bit word they change. -/

def SetPageReserved (flags : Nat) : Nat := flags ||| 1 <<< PG_reserved

def PageReserved (flags : Nat) : Bool := flags >>> PG_reserved &&& 1 != 0

def SetPageProperty (flags : Nat) : Nat := flags ||| 1 <<< PG_property

def ClearPageProperty (flags : Nat) : Nat :=
  flags &&& (2 ^ 64 - 1 - 1 <<< PG_property)

def PageProperty (flags : Nat) : Bool := flags >>> PG_property &&& 1 != 0

theorem uint32_of_lt {value : Nat} (fits : value < 2 ^ 32) : uint32 value = value :=
  Nat.mod_eq_of_lt fits

theorem uint32Sub_of_le {left right : Nat} (fits : left < 2 ^ 32) (le : right ≤ left) :
    uint32Sub left right = left - right := by
  simp only [uint32Sub, uint32]
  omega

theorem pageReserved_eq (flags : Nat) : PageReserved flags = flags.testBit 0 := by
  rw [PageReserved, PG_reserved, Nat.testBit, Nat.and_comm]

theorem pageProperty_eq (flags : Nat) : PageProperty flags = flags.testBit 1 := by
  rw [PageProperty, PG_property, Nat.testBit, Nat.and_comm]

theorem pageReserved_set (flags : Nat) : PageReserved (SetPageReserved flags) = true := by
  have mark : (1 <<< PG_reserved).testBit 0 = true := rfl
  rw [pageReserved_eq, SetPageReserved, Nat.testBit_or, mark, Bool.or_true]

theorem pageProperty_set (flags : Nat) : PageProperty (SetPageProperty flags) = true := by
  have mark : (1 <<< PG_property).testBit 1 = true := rfl
  rw [pageProperty_eq, SetPageProperty, Nat.testBit_or, mark, Bool.or_true]

theorem pageProperty_clear (flags : Nat) : PageProperty (ClearPageProperty flags) = false := by
  have mask : (2 ^ 64 - 1 - 1 <<< PG_property).testBit 1 = false := rfl
  rw [pageProperty_eq, ClearPageProperty, Nat.testBit_and, mask, Bool.and_false]

theorem pageReserved_clear (flags : Nat) :
    PageReserved (ClearPageProperty flags) = PageReserved flags := by
  have mask : (2 ^ 64 - 1 - 1 <<< PG_property).testBit 0 = true := rfl
  rw [pageReserved_eq, pageReserved_eq, ClearPageProperty, Nat.testBit_and, mask, Bool.and_true]

end Ucore.Mm
