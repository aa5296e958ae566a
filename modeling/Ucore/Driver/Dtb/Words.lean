import Mathlib.Tactic.IntervalCases
import Ucore.Driver.Dtb

namespace Ucore.Driver.Dtb

open Ucore.Data Ucore.Libs Ucore.Mm

/-! Words of the tree are stored with the most significant byte first. -/

variable {memory : KernelMemory} {image other : Image} {address value x : Nat} {bytes : List UInt8}

/-- A 32-bit word of the tree lies at the address. -/
structure Word (image : Image) (address value : Nat) : Prop where
  fits : value < 2 ^ 32
  holds : image.Holds address (bigEndian32 value)

theorem Word.mono (word : Word image address value) (le : Image.Le image other) :
    Word other address value :=
  ⟨word.fits, word.holds.mono le⟩

theorem Word.unique (first : Word image address value) (second : Word image address x) : value = x := by
  have same := first.holds.unique second.holds rfl
  rw [← fromBigEndian_bigEndian32 first.fits, same, fromBigEndian_bigEndian32 second.fits]

theorem or_bytes {a b c d : Nat} (second : b < 256) (third : c < 256) (fourth : d < 256) :
    a <<< 24 ||| b <<< 16 ||| c <<< 8 ||| d = a * 2 ^ 24 + b * 2 ^ 16 + c * 2 ^ 8 + d := by
  have low : c <<< 8 ||| d = c * 2 ^ 8 + d := by
    rw [← Nat.shiftLeft_add_eq_or_of_lt fourth, Nat.shiftLeft_eq]
  have middle : b <<< 16 ||| (c <<< 8 ||| d) = b * 2 ^ 16 + (c * 2 ^ 8 + d) := by
    have fits : c <<< 8 ||| d < 2 ^ 16 := by
      rw [low]
      omega
    rw [← Nat.shiftLeft_add_eq_or_of_lt fits, Nat.shiftLeft_eq, low]
  have fits : b <<< 16 ||| (c <<< 8 ||| d) < 2 ^ 24 := by
    rw [middle]
    omega
  rw [Nat.or_assoc, Nat.or_assoc, ← Nat.shiftLeft_add_eq_or_of_lt fits, Nat.shiftLeft_eq, middle]
  omega

theorem fdt32ToCpu_eq (x : Nat) : fdt32ToCpu x =
    x % 256 * 2 ^ 24 + x / 2 ^ 8 % 256 * 2 ^ 16 + x / 2 ^ 16 % 256 * 2 ^ 8 + x / 2 ^ 24 % 256 := by
  have mask (value : Nat) : value &&& 0xff = value % 256 := Nat.and_two_pow_sub_one_eq_mod value 8
  rw [fdt32ToCpu, mask, mask, mask, mask, Nat.shiftRight_eq_div_pow, Nat.shiftRight_eq_div_pow,
    Nat.shiftRight_eq_div_pow]
  exact or_bytes (Nat.mod_lt _ (by decide)) (Nat.mod_lt _ (by decide)) (Nat.mod_lt _ (by decide))

theorem fdt32ToCpu_bytes (a b c d : UInt8) :
    fdt32ToCpu (fromLittleEndian [a, b, c, d]) = fromBigEndian [a, b, c, d] := by
  have first := a.toNat_lt
  have second := b.toNat_lt
  have third := c.toNat_lt
  have fourth := d.toNat_lt
  simp only [fdt32ToCpu_eq, fromLittleEndian, fromBigEndian, List.foldl_cons, List.foldl_nil]
  generalize word : a.toNat + 256 * (b.toNat + 256 * (c.toNat + 256 * (d.toNat + 256 * 0))) = x
  have lane0 : x % 256 = a.toNat := by omega
  have lane1 : x / 2 ^ 8 % 256 = b.toNat := by omega
  have lane2 : x / 2 ^ 16 % 256 = c.toNat := by omega
  have lane3 : x / 2 ^ 24 % 256 = d.toNat := by omega
  rw [lane0, lane1, lane2, lane3]
  omega

/-- Swapping the bytes of a loaded word reads it the other way round. -/
theorem fdt32ToCpu_reverse (length : bytes.length = 4) :
    fdt32ToCpu (fromLittleEndian bytes) = fromBigEndian bytes := by
  match bytes, length with
  | [a, b, c, d], _ => exact fdt32ToCpu_bytes a b c d

theorem fdt64ToCpu_append {low high : List UInt8} (lowLength : low.length = 4)
    (highLength : high.length = 4) :
    fdt64ToCpu (fromLittleEndian (low ++ high)) = fromBigEndian (low ++ high) := by
  have lowBound := fromLittleEndian_lt low
  have highBound := fromBigEndian_lt high
  have split := fromLittleEndian_append low high
  rw [lowLength] at lowBound split
  rw [highLength] at highBound
  have width : (2 : Nat) ^ 32 = 256 ^ 4 := by decide
  have fits : fromBigEndian high < 2 ^ 32 := width ▸ highBound
  have lower : fromLittleEndian (low ++ high) &&& 0xffffffff = fromLittleEndian low := by
    refine (Nat.and_two_pow_sub_one_eq_mod _ 32).trans ?_
    omega
  have upper : fromLittleEndian (low ++ high) >>> 32 = fromLittleEndian high := by
    rw [Nat.shiftRight_eq_div_pow]
    omega
  rw [fdt64ToCpu, lower, upper, fdt32ToCpu_reverse lowLength, fdt32ToCpu_reverse highLength,
    ← Nat.shiftLeft_add_eq_or_of_lt fits, Nat.shiftLeft_eq, fromBigEndian_append, highLength, width]

theorem fdt64ToCpu_reverse (length : bytes.length = 8) :
    fdt64ToCpu (fromLittleEndian bytes) = fromBigEndian bytes := by
  have halves := List.take_append_drop 4 bytes
  have lowLength : (bytes.take 4).length = 4 := by
    rw [List.length_take]
    omega
  have highLength : (bytes.drop 4).length = 4 := by
    rw [List.length_drop]
    omega
  rw [← halves]
  exact fdt64ToCpu_append lowLength highLength

theorem loadFdt32_word (word : Word memory.image address value) :
    loadFdt32 memory address = .ok value := by
  refine bind_eq_ok.mpr ⟨_, loadBytes_holds word.holds, ?_⟩
  rw [fdt32ToCpu_reverse rfl, fromBigEndian_bigEndian32 word.fits]

theorem loadFdt32_inv (loaded : loadFdt32 memory address = .ok value) :
    Word memory.image address value := by
  obtain ⟨word, loaded, swapped⟩ := bind_eq_ok.mp loaded
  obtain ⟨bytes, length, holds, rfl⟩ := loadBytes_inv loaded
  have same := Except.ok.inj swapped
  rw [fdt32ToCpu_reverse length] at same
  have bound := fromBigEndian_lt bytes
  rw [length] at bound
  rw [← same]
  refine ⟨Nat.lt_of_lt_of_le bound (by decide), ?_⟩
  rw [bigEndian32_fromBigEndian length]
  exact holds

theorem loadFdt64_iff : loadFdt64 memory address = .ok value ↔
    ∃ bytes, bytes.length = 8 ∧ memory.image.Holds address bytes ∧ value = fromBigEndian bytes := by
  constructor
  · intro loaded
    obtain ⟨word, loaded, swapped⟩ := bind_eq_ok.mp loaded
    obtain ⟨bytes, length, holds, rfl⟩ := loadBytes_inv loaded
    refine ⟨bytes, length, holds, ?_⟩
    rw [← Except.ok.inj swapped, fdt64ToCpu_reverse length]
  · intro found
    obtain ⟨bytes, length, holds, rfl⟩ := found
    have loaded := loadBytes_holds holds
    rw [length] at loaded
    refine bind_eq_ok.mpr ⟨_, loaded, ?_⟩
    rw [fdt64ToCpu_reverse length]

end Ucore.Driver.Dtb
