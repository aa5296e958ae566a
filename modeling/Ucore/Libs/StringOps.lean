import Ucore.Libs.Memmove
import Ucore.Libs.String

namespace Ucore.Libs.StringOps

open Ucore.Data Ucore.Mm

/-! The other functions of `libs/string.c`, on pointers into a memory of any size. -/

/-- `while ((*p ++ = *src ++) != '\0')`. -/
def strcpyLoop : Nat → (p src : Nat) → Image → Except Stop Image
  | 0, _, _, _ => .error .outOfFuel
  | fuel + 1, p, src, image => do
      let byte ← readChar image src
      let image ← writeChar image p byte
      if byte ≠ 0 then strcpyLoop fuel (uint64 (p + 1)) (uint64 (src + 1)) image else .ok image

/-- The result, and the memory afterwards. -/
def strcpy (image : Image) (dst src : Nat) : Bounded (Nat × Image) := fun fuel => do
  let image ← strcpyLoop fuel dst src image
  .ok (dst, image)

/-- `while (len > 0)`: `src` stays at the terminator. -/
def strncpyLoop : (len p src : Nat) → Image → Except Stop Image
  | 0, _, _, image => .ok image
  | len + 1, p, src, image => do
      let byte ← readChar image src
      let image ← writeChar image p byte
      strncpyLoop len (uint64 (p + 1)) (if byte ≠ 0 then uint64 (src + 1) else src) image

def strncpy (image : Image) (dst src len : Nat) : Except Stop (Nat × Image) := do
  let image ← strncpyLoop len dst src image
  .ok (dst, image)

/-- The loop is the second one of `memmove`. -/
def memcpy (image : Image) (dst src n : Nat) : Except Stop (Nat × Image) := do
  let image ← memmoveUp n dst src image
  .ok (dst, image)

def strcmp (image : Image) : Nat → (s1 s2 : Nat) → Except Stop Int
  | 0, _, _ => .error .outOfFuel
  | fuel + 1, s1, s2 => do
      let first ← readChar image s1
      let second ← readChar image s2
      if first ≠ 0 ∧ first = second then
        strcmp image fuel (uint64 (s1 + 1)) (uint64 (s2 + 1))
      else
        .ok (first.toNat - second.toNat)

def strncmp (image : Image) : (n s1 s2 : Nat) → Except Stop Int
  | 0, _, _ => .ok 0
  | n + 1, s1, s2 => do
      let first ← readChar image s1
      let second ← readChar image s2
      if first ≠ 0 ∧ first = second then
        strncmp image n (uint64 (s1 + 1)) (uint64 (s2 + 1))
      else
        .ok (first.toNat - second.toNat)

def memcmp (image : Image) : (n s1 s2 : Nat) → Except Stop Int
  | 0, _, _ => .ok 0
  | n + 1, s1, s2 => do
      let first ← readChar image s1
      let second ← readChar image s2
      if first ≠ second then
        .ok (first.toNat - second.toNat)
      else
        memcmp image n (uint64 (s1 + 1)) (uint64 (s2 + 1))

def strchr (image : Image) (c : UInt8) : Nat → (s : Nat) → Except Stop (Option Nat)
  | 0, _ => .error .outOfFuel
  | fuel + 1, s => do
      let byte ← readChar image s
      if byte ≠ 0 then
        if byte = c then .ok (some s) else strchr image c fuel (uint64 (s + 1))
      else
        .ok none

def strfind (image : Image) (c : UInt8) : Nat → (s : Nat) → Except Stop Nat
  | 0, _ => .error .outOfFuel
  | fuel + 1, s => do
      let byte ← readChar image s
      if byte ≠ 0 ∧ byte ≠ c then strfind image c fuel (uint64 (s + 1)) else .ok s

variable {image : Image} {address count : Nat} {byte : UInt8}

theorem readChar_ok : readChar image address = .ok byte ↔ image address = some byte := by
  rw [readChar]
  cases image address with
  | none => simp
  | some found => simp

theorem writeChar_ok {after : Image} : writeChar image address byte = .ok after ↔
    image address ≠ none ∧ after = Function.update image address (some byte) := by
  rw [writeChar]
  split
  · rename_i writable
    simp [writable, eq_comm]
  · rename_i missing
    simp [missing]

theorem uint64_next (address count : Nat) :
    uint64 (uint64 (address + count) + 1) = uint64 (address + 1 + count) := by
  rw [Nat.add_right_comm]
  exact Nat.mod_add_mod _ _ _

/-- "ab" and "abc" side by side, and room behind them. -/
def textImage : Image := Image.ofBytes 8 [97, 98, 0, 97, 98, 99, 0, 1, 1, 1]

theorem textImage_strings : StringAt textImage 8 [97, 98] ∧ StringAt textImage 11 [97, 98, 99] := by
  have bytes := Image.ofBytes_holds 8 [97, 98, 0, 97, 98, 99, 0, 1, 1, 1]
  exact ⟨⟨bytes.shorten (by decide), by decide⟩, ⟨(bytes.drop 3).shorten (by decide), by decide⟩⟩

theorem textImage_mapped (low : 8 ≤ address) (high : address + count ≤ 18) :
    Mapped textImage address count := fun offset inside =>
  (Image.ofBytes_holds 8 [97, 98, 0, 97, 98, 99, 0, 1, 1, 1]).readable (by omega)
    (by simp only [List.length_cons, List.length_nil]; omega)

end Ucore.Libs.StringOps
