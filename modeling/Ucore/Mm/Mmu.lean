import Mathlib.Data.Nat.Bitwise
import Ucore.Data.Bounded
import Ucore.Data.Image

namespace Ucore.Mm

open Ucore.Data

/-! `kern/mm/mmu.h` and the mapping that `kern/init/entry.S` sets up. -/

/-- `uintptr_t` and `size_t`. -/
def uint64 (value : Nat) : Nat := value % 2 ^ 64

/-- A signed value converted to `uintptr_t`. -/
def uint64OfInt (value : Int) : Nat := (value % 2 ^ 64).toNat

/-- `~value` in 64 bits. -/
def uint64Not (value : Nat) : Nat := 2 ^ 64 - 1 - value

/-- A value converted to `long`. -/
def int64 (value : Int) : Int := Int.bmod value (2 ^ 64)

/-- `left - right` in `uintptr_t`. -/
def uint64Sub (left right : Nat) : Nat := uint64 (left + 2 ^ 64 - uint64 right)

def PGSHIFT : Nat := 12

def PGSIZE : Nat := 4096

def DRAM_BASE : Nat := 0x80000000

def PHYSICAL_MEMORY_OFFSET : Nat := 0xFFFFFFFF40000000

def nbase : Nat := DRAM_BASE / PGSIZE

def va_pa_offset : Nat := PHYSICAL_MEMORY_OFFSET

/-- `page - pages + nbase`, where the page is its index in `pages`. -/
def page2ppn (page : Nat) : Nat := page + nbase

def page2pa (page : Nat) : Nat := uint64 (page2ppn page <<< PGSHIFT)

/-- The only entry of `boot_page_table_sv39` maps one gigabyte from here on to `DRAM_BASE`. -/
def mappedBase : Nat := 0xFFFFFFFFC0000000

/-- The frames of that gigabyte. -/
def mappedPages : Nat := 2 ^ 18

/-- The kernel virtual address of a frame. -/
def kva (page : Nat) : Nat := mappedBase + PGSIZE * page

/-- What the kernel reads; an address that is not mapped faults. -/
structure KernelMemory where
  image : Image
  mapped : ∀ address, image address ≠ none → mappedBase ≤ address ∧ address < 2 ^ 64

def loadByte (memory : KernelMemory) (address : Nat) : Except Stop UInt8 :=
  match memory.image address with
  | some byte => .ok byte
  | none => .error (.panic "load page fault")

def storeByte (memory : KernelMemory) (address : Nat) (byte : UInt8) : Except Stop KernelMemory :=
  if readable : memory.image address ≠ none then
    .ok {
      image := Function.update memory.image address (some byte)
      mapped := fun place read => by
        by_cases same : place = address
        · rw [same]
          exact memory.mapped address readable
        · rw [Function.update_of_ne same] at read
          exact memory.mapped place read }
  else
    .error (.panic "store page fault")

/-- A little-endian load of this many bytes. -/
def loadBytes (memory : KernelMemory) (address : Nat) : (width : Nat) → Except Stop Nat
  | 0 => .ok 0
  | width + 1 => do
      let byte ← loadByte memory address
      let rest ← loadBytes memory (address + 1) width
      .ok (byte.toNat + 256 * rest)

variable {memory : KernelMemory} {value page width shift address count : Nat} {byte : UInt8}
  {bytes : List UInt8}

theorem uint64_of_lt (fits : value < 2 ^ 64) : uint64 value = value :=
  Nat.mod_eq_of_lt fits

theorem uint64Sub_of_le {left right : Nat} (fits : left < 2 ^ 64) (le : right ≤ left) :
    uint64Sub left right = left - right := by
  simp only [uint64Sub, uint64]
  omega

theorem uint64Sub_of_lt {left right : Nat} (lt : left < right) (fits : right < 2 ^ 64) :
    uint64Sub left right + (right - left) = 2 ^ 64 := by
  rw [uint64Sub, uint64_of_lt fits, uint64]
  omega

theorem and_uint64Not (fits : value < 2 ^ 64) (bits : shift ≤ 64) :
    value &&& uint64Not (2 ^ shift - 1) = value / 2 ^ shift * 2 ^ shift := by
  have power : 2 ^ shift ≤ 2 ^ 64 := Nat.pow_le_pow_right (by decide) bits
  have positive : 0 < 2 ^ shift := Nat.two_pow_pos shift
  have mask : uint64Not (2 ^ shift - 1) = (2 ^ (64 - shift) - 1) * 2 ^ shift := by
    rw [uint64Not, Nat.sub_mul, Nat.one_mul, ← Nat.pow_add, Nat.sub_add_cancel bits]
    omega
  apply Nat.eq_of_testBit_eq
  intro bit
  rw [mask, Nat.testBit_and, Nat.testBit_mul_two_pow, Nat.testBit_mul_two_pow,
    Nat.testBit_two_pow_sub_one, Nat.testBit_div_two_pow]
  by_cases low : shift ≤ bit
  · by_cases high : bit < 64
    · have inside : bit - shift < 64 - shift := by omega
      simp [low, inside]
    · have beyond : value.testBit bit = false :=
        Nat.testBit_lt_two_pow (fits.trans_le (Nat.pow_le_pow_right (by decide) (by omega)))
      simp [low, beyond]
  · simp [low]

theorem kva_eq (mapped : page < mappedPages) : uint64 (page2pa page + va_pa_offset) = kva page := by
  simp only [mappedPages] at mapped
  simp only [uint64, page2pa, page2ppn, va_pa_offset, PHYSICAL_MEMORY_OFFSET, nbase, DRAM_BASE, PGSIZE,
    PGSHIFT, kva, mappedBase, Nat.shiftLeft_eq]
  omega

theorem uint64OfInt_natCast (value : Nat) : uint64OfInt value = uint64 value := by
  simp only [uint64OfInt, uint64]
  omega

/-- The number that these bytes write, the least significant one first. -/
def fromLittleEndian : List UInt8 → Nat
  | [] => 0
  | byte :: bytes => byte.toNat + 256 * fromLittleEndian bytes

theorem fromLittleEndian_append (first second : List UInt8) : fromLittleEndian (first ++ second) =
    fromLittleEndian first + 256 ^ first.length * fromLittleEndian second := by
  induction first with
  | nil => simp [fromLittleEndian]
  | cons byte first ih =>
      rw [List.cons_append, fromLittleEndian, fromLittleEndian, ih, List.length_cons, Nat.pow_succ]
      ring

theorem fromLittleEndian_lt (bytes : List UInt8) : fromLittleEndian bytes < 256 ^ bytes.length := by
  induction bytes with
  | nil => exact Nat.one_pos
  | cons byte bytes ih =>
      have small := byte.toNat_lt
      rw [fromLittleEndian, List.length_cons, Nat.pow_succ]
      omega

theorem loadByte_ok : loadByte memory address = .ok byte ↔ memory.image address = some byte := by
  rw [loadByte]
  cases memory.image address with
  | none => simp
  | some found => simp

theorem storeByte_ok (byte : UInt8) (readable : memory.image address ≠ none) :
    ∃ after, storeByte memory address byte = .ok after := by
  rw [storeByte, dif_pos readable]
  exact ⟨_, rfl⟩

theorem storeByte_image {after : KernelMemory} (stored : storeByte memory address byte = .ok after) :
    after.image = Function.update memory.image address (some byte) := by
  rw [storeByte] at stored
  split at stored
  · cases stored
    rfl
  · cases stored

theorem loadBytes_holds (holds : memory.image.Holds address bytes) :
    loadBytes memory address bytes.length = .ok (fromLittleEndian bytes) := by
  induction bytes generalizing address with
  | nil => rfl
  | cons byte bytes ih =>
      refine bind_eq_ok.mpr ⟨byte, loadByte_ok.mpr holds.1, ?_⟩
      exact bind_eq_ok.mpr ⟨_, ih holds.2, rfl⟩

theorem loadBytes_inv {width : Nat} (loaded : loadBytes memory address width = .ok value) :
    ∃ bytes, bytes.length = width ∧ memory.image.Holds address bytes ∧
      value = fromLittleEndian bytes := by
  induction width generalizing address value with
  | zero =>
      cases loaded
      exact ⟨[], rfl, trivial, rfl⟩
  | succ width ih =>
      obtain ⟨byte, read, loaded⟩ := bind_eq_ok.mp loaded
      obtain ⟨rest, loaded, same⟩ := bind_eq_ok.mp loaded
      obtain ⟨bytes, length, holds, rfl⟩ := ih loaded
      cases same
      exact ⟨byte :: bytes, by rw [List.length_cons, length], ⟨loadByte_ok.mp read, holds⟩, rfl⟩

theorem KernelMemory.not_mapped (memory : KernelMemory) (low : address < mappedBase) :
    memory.image address = none := by
  apply Classical.byContradiction
  intro read
  have inside := memory.mapped address read
  omega

/-- Past the last mapped address a pointer wraps around to where nothing is mapped. -/
theorem KernelMemory.image_uint64 (memory : KernelMemory) (bound : address ≤ 2 ^ 64) :
    memory.image (uint64 address) = memory.image address := by
  rcases Nat.eq_or_lt_of_le bound with top | inside
  · have beyond : memory.image address = none := by
      apply Classical.byContradiction
      intro read
      have inside := memory.mapped address read
      omega
    rw [top, uint64, Nat.mod_self, ← top, beyond]
    exact memory.not_mapped (by decide)
  · rw [uint64_of_lt inside]

theorem KernelMemory.holds_uint64 (memory : KernelMemory) (bound : address ≤ 2 ^ 64) :
    memory.image.Holds (uint64 address) bytes ↔ memory.image.Holds address bytes := by
  rcases Nat.eq_or_lt_of_le bound with top | inside
  · cases bytes with
    | nil => exact Iff.rfl
    | cons byte bytes =>
        have wrapped := memory.image_uint64 bound
        have zero : memory.image (uint64 address) = none := by
          rw [top, uint64, Nat.mod_self]
          exact memory.not_mapped (by decide)
        refine iff_of_false (fun holds => ?_) fun holds => ?_
        · rw [holds.1] at zero
          cases zero
        · have read := wrapped.trans holds.1
          rw [zero] at read
          cases read
  · rw [uint64_of_lt inside]

theorem KernelMemory.holds_le (memory : KernelMemory) (holds : memory.image.Holds address bytes)
    (some : bytes ≠ []) : mappedBase ≤ address ∧ address + bytes.length ≤ 2 ^ 64 := by
  have positive := List.length_pos_iff.mpr some
  have first := memory.mapped address (holds.readable (Nat.le_refl _) (by omega))
  have last := memory.mapped (address + (bytes.length - 1)) (holds.readable (by omega) (by omega))
  omega

end Ucore.Mm
