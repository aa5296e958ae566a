import Ucore.Mm.Mmu

namespace Ucore.Libs

open Ucore.Data Ucore.Mm

/-! `memmove` of `libs/string.c`, in a memory of any size. -/

/-- `*s`, which faults where there is no memory. -/
def readChar (image : Image) (address : Nat) : Except Stop UInt8 :=
  match image address with
  | some byte => .ok byte
  | none => .error (.panic "load page fault")

def writeChar (image : Image) (address : Nat) (byte : UInt8) : Except Stop Image :=
  if image address ≠ none then
    .ok (Function.update image address (some byte))
  else
    .error (.panic "store page fault")

/-- `while (n -- > 0) *-- d = *-- s`. -/
def memmoveDown : (n d s : Nat) → Image → Except Stop Image
  | 0, _, _, image => .ok image
  | n + 1, d, s, image => do
      let d := uint64Sub d 1
      let s := uint64Sub s 1
      let byte ← readChar image s
      let image ← writeChar image d byte
      memmoveDown n d s image

/-- `while (n -- > 0) *d ++ = *s ++`. -/
def memmoveUp : (n d s : Nat) → Image → Except Stop Image
  | 0, _, _, image => .ok image
  | n + 1, d, s, image => do
      let byte ← readChar image s
      let image ← writeChar image d byte
      memmoveUp n (uint64 (d + 1)) (uint64 (s + 1)) image

/-- The result, and the memory afterwards. -/
def memmove (image : Image) (dst src n : Nat) : Except Stop (Nat × Image) := do
  let s := src
  let d := dst
  let image ← (
    if s < d ∧ uint64 (s + n) > d then
      memmoveDown n (uint64 (d + n)) (uint64 (s + n)) image
    else
      memmoveUp n d s image)
  .ok (dst, image)

variable {image : Image} {dst src n d s address : Nat} {byte : UInt8}

/-- So many bytes from the address on can be accessed. -/
def Mapped (image : Image) (address n : Nat) : Prop :=
  ∀ offset, offset < n → image (address + offset) ≠ none

theorem Mapped.update (mapped : Mapped image address n) (place : Nat) {value : Option UInt8}
    (isByte : value ≠ none) : Mapped (Function.update image place value) address n := by
  intro offset inside
  rw [Function.update_apply]
  split
  · exact isByte
  · exact mapped offset inside

theorem Mapped.init (mapped : Mapped image address (n + 1)) : Mapped image address n :=
  fun offset inside => mapped offset (Nat.lt_succ_of_lt inside)

theorem Mapped.tail (mapped : Mapped image address (n + 1)) : Mapped image (address + 1) n := by
  intro offset inside
  have shift : address + 1 + offset = address + (offset + 1) := by omega
  rw [shift]
  exact mapped (offset + 1) (Nat.succ_lt_succ inside)

theorem copyChar_bind (readable : image s ≠ none) (writable : image d ≠ none)
    (rest : Image → Except Stop Image) :
    (readChar image s >>= fun byte => writeChar image d byte >>= rest) =
      rest (Function.update image d (image s)) := by
  obtain ⟨byte, read⟩ := Option.ne_none_iff_exists'.mp readable
  rw [readChar, read, ok_bind, writeChar, if_pos writable, ok_bind]

theorem memmoveUp_ok (fitsDst : d + n ≤ 2 ^ 64) (fitsSrc : s + n ≤ 2 ^ 64)
    (apart : ¬ (s < d ∧ d < s + n)) (readable : Mapped image s n) (writable : Mapped image d n) :
    memmoveUp n (uint64 d) (uint64 s) image = .ok (image.moved d s n) := by
  induction n generalizing d s image with
  | zero => rw [memmoveUp, Image.moved_zero]
  | succ n ih =>
      have isByte : image s ≠ none := readable 0 (Nat.succ_pos n)
      have canWrite : image d ≠ none := writable 0 (Nat.succ_pos n)
      have nextDst : uint64 (d + 1) = uint64 (uint64 d + 1) := (Nat.mod_add_mod _ _ _).symm
      have nextSrc : uint64 (s + 1) = uint64 (uint64 s + 1) := (Nat.mod_add_mod _ _ _).symm
      have onward := @ih (Function.update image d (image s)) (d + 1) (s + 1) (by omega) (by omega)
        (by omega) (readable.tail.update d isByte) (writable.tail.update d isByte)
      rw [nextDst, nextSrc, Image.moved_first apart] at onward
      rw [uint64_of_lt (by omega : d < 2 ^ 64), uint64_of_lt (by omega : s < 2 ^ 64)] at onward ⊢
      rw [memmoveUp, copyChar_bind isByte canWrite]
      exact onward

theorem memmoveDown_ok (fitsDst : d + n ≤ 2 ^ 64) (fitsSrc : s + n ≤ 2 ^ 64) (up : s ≤ d)
    (readable : Mapped image s n) (writable : Mapped image d n) :
    memmoveDown n (uint64 (d + n)) (uint64 (s + n)) image = .ok (image.moved d s n) := by
  have back {place : Nat} (fits : place + 1 ≤ 2 ^ 64) : uint64Sub (uint64 (place + 1)) 1 = place := by
    simp only [uint64Sub, uint64]
    omega
  induction n generalizing image with
  | zero => rw [memmoveDown, Image.moved_zero]
  | succ n ih =>
      have isByte : image (s + n) ≠ none := readable n (Nat.lt_succ_self n)
      have onward := ih (by omega) (by omega) (readable.init.update (d + n) isByte)
        (writable.init.update (d + n) isByte)
      rw [uint64_of_lt (by omega : d + n < 2 ^ 64), uint64_of_lt (by omega : s + n < 2 ^ 64),
        Image.moved_last up] at onward
      have lastDst : uint64Sub (uint64 (d + (n + 1))) 1 = d + n := back fitsDst
      have lastSrc : uint64Sub (uint64 (s + (n + 1))) 1 = s + n := back fitsSrc
      rw [memmoveDown, lastDst, lastSrc, copyChar_bind isByte (writable n (Nat.lt_succ_self n))]
      exact onward

/-- The direction is such that no byte is read after it was overwritten. -/
theorem memmove_ok (fitsDst : dst + n ≤ 2 ^ 64) (fitsSrc : src + n ≤ 2 ^ 64)
    (readable : Mapped image src n) (writable : Mapped image dst n) (isDst : dst < 2 ^ 64)
    (isSrc : src < 2 ^ 64) :
    memmove image dst src n = .ok (dst, image.moved dst src n) := by
  rw [memmove]
  by_cases down : src < dst ∧ uint64 (src + n) > dst
  · rw [if_pos down, memmoveDown_ok fitsDst fitsSrc (Nat.le_of_lt down.1) readable writable, ok_bind]
  · have apart : ¬ (src < dst ∧ dst < src + n) := by
      intro both
      rw [uint64_of_lt (by omega : src + n < 2 ^ 64)] at down
      exact down both
    have moved := memmoveUp_ok fitsDst fitsSrc apart readable writable
    rw [uint64_of_lt isDst, uint64_of_lt isSrc] at moved
    rw [if_neg down, moved, ok_bind]

/-- However the ranges lie, the bytes of `src` get to `dst` and all others stay. -/
theorem memmove_copies (image : Image) (dst src n : UInt64) (fitsDst : dst.toNat + n.toNat ≤ 2 ^ 64)
    (fitsSrc : src.toNat + n.toNat ≤ 2 ^ 64) (readable : Mapped image src.toNat n.toNat)
    (writable : Mapped image dst.toNat n.toNat) :
    ∃ after, memmove image dst.toNat src.toNat n.toNat = .ok (dst.toNat, after) ∧
      (∀ i, i < n.toNat → after (dst.toNat + i) = image (src.toNat + i)) ∧
      ∀ address, address < dst.toNat ∨ dst.toNat + n.toNat ≤ address → after address = image address :=
  ⟨image.moved dst.toNat src.toNat n.toNat,
    memmove_ok fitsDst fitsSrc readable writable dst.toNat_lt src.toNat_lt,
    fun _ inside => Image.moved_inside inside, fun _ outside => Image.moved_outside outside⟩

/-- Three bytes are moved by one. -/
theorem memmove_copies_three : ∃ after, memmove (Image.ofBytes 8 [1, 2, 3, 4]) 9 8 3 = .ok (9, after) ∧
    after 9 = some 1 ∧ after 10 = some 2 ∧ after 11 = some 3 ∧ after 8 = some 1 := by
  have bytes := Image.ofBytes_holds 8 [1, 2, 3, 4]
  have mapped (address : Nat) (low : 8 ≤ address) (high : address + 3 ≤ 12) :
      Mapped (Image.ofBytes 8 [1, 2, 3, 4]) address 3 := fun offset inside =>
    bytes.readable (by omega) (by simp only [List.length_cons, List.length_nil]; omega)
  obtain ⟨after, result, copied, kept⟩ := memmove_copies (Image.ofBytes 8 [1, 2, 3, 4]) 9 8 3
    (by decide) (by decide) (mapped 8 (by decide) (by decide)) (mapped 9 (by decide) (by decide))
  exact ⟨after, result, copied 0 (by decide), copied 1 (by decide), copied 2 (by decide),
    kept 8 (.inl (by decide))⟩

end Ucore.Libs
