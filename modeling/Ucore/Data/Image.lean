import Mathlib.Tactic.Ring

namespace Ucore.Data

/-! Byte memory of which only a part can be read. -/

abbrev Image := Nat → Option UInt8

/-- The bytes of a number below `2 ^ 32`, the most significant one first. -/
def bigEndian32 (value : Nat) : List UInt8 :=
  [UInt8.ofNat (value / 2 ^ 24), UInt8.ofNat (value / 2 ^ 16), UInt8.ofNat (value / 2 ^ 8),
    UInt8.ofNat value]

/-- The number that these bytes write, the most significant one first. -/
def fromBigEndian (bytes : List UInt8) : Nat :=
  bytes.foldl (fun value byte => 256 * value + byte.toNat) 0

namespace Image

variable {image other : Image} {address start size value : Nat} {byte : UInt8}
  {bytes first second : List UInt8}

/-- These bytes lie at the address. -/
def Holds (image : Image) : (address : Nat) → List UInt8 → Prop
  | _, [] => True
  | address, byte :: bytes => image address = some byte ∧ Holds image (address + 1) bytes

/-- Everything that can be read in the first can be read in the second. -/
def Le (image other : Image) : Prop :=
  ∀ address byte, image address = some byte → other address = some byte

/-- Only the bytes of this range can be read. -/
def within (image : Image) (start size : Nat) : Image := fun address =>
  if start ≤ address ∧ address < start + size then image address else none

/-- The bytes of this range cannot be read. -/
def outside (image : Image) (start size : Nat) : Image := fun address =>
  if start ≤ address ∧ address < start + size then none else image address

/-- Nothing but these bytes can be read. -/
def ofBytes (start : Nat) (bytes : List UInt8) : Image := fun address =>
  if start ≤ address then bytes[address - start]? else none

theorem holds_append : Holds image address (first ++ second) ↔
    Holds image address first ∧ Holds image (address + first.length) second := by
  induction first generalizing address with
  | nil => exact (and_iff_right trivial).symm
  | cons byte first ih =>
      have shift : address + 1 + first.length = address + (first.length + 1) := by omega
      rw [List.cons_append, Holds, Holds, ih, List.length_cons, shift, and_assoc]

theorem Holds.mono (holds : Holds image address bytes) (le : Le image other) :
    Holds other address bytes := by
  induction bytes generalizing address with
  | nil => trivial
  | cons byte bytes ih => exact ⟨le _ _ holds.1, ih holds.2⟩

theorem Holds.drop (holds : Holds image address bytes) (skipped : Nat) :
    Holds image (address + skipped) (bytes.drop skipped) := by
  induction bytes generalizing address skipped with
  | nil =>
      rw [List.drop_nil]
      trivial
  | cons byte bytes ih =>
      cases skipped with
      | zero => exact holds
      | succ skipped =>
          have shift : address + (skipped + 1) = address + 1 + skipped := by omega
          rw [shift]
          exact ih holds.2 skipped

theorem Holds.shorten (holds : Holds image address bytes) (isPrefix : first <+: bytes) :
    Holds image address first := by
  obtain ⟨rest, rfl⟩ := isPrefix
  exact (holds_append.mp holds).1

theorem Holds.readable (holds : Holds image address bytes) {place : Nat} (low : address ≤ place)
    (high : place < address + bytes.length) : image place ≠ none := by
  induction bytes generalizing address with
  | nil => exact absurd high (by rw [List.length_nil]; omega)
  | cons byte bytes ih =>
      rcases Nat.eq_or_lt_of_le low with same | later
      · rw [← same, holds.1]
        exact Option.some_ne_none byte
      · rw [List.length_cons] at high
        exact ih holds.2 later (by omega)

theorem Holds.getElem? (holds : Holds image address bytes) {offset : Nat}
    (inside : offset < bytes.length) : image (address + offset) = bytes[offset]? := by
  induction bytes generalizing address offset with
  | nil => exact absurd inside (Nat.not_lt_zero _)
  | cons byte bytes ih =>
      cases offset with
      | zero => exact holds.1
      | succ offset =>
          have shift : address + (offset + 1) = address + 1 + offset := by omega
          rw [List.getElem?_cons_succ, shift]
          exact ih holds.2 (Nat.lt_of_succ_lt_succ inside)

theorem holds_of_getElem? (same : ∀ offset, offset < bytes.length → image (address + offset) = bytes[offset]?) :
    Holds image address bytes := by
  induction bytes generalizing address with
  | nil => trivial
  | cons byte bytes ih =>
      refine ⟨same 0 (Nat.succ_pos _), ih fun offset inside => ?_⟩
      rw [Nat.add_assoc, Nat.add_comm 1]
      exact same (offset + 1) (Nat.succ_lt_succ inside)

theorem Holds.unique (left : Holds image address first) (right : Holds image address second)
    (same : first.length = second.length) : first = second := by
  induction first generalizing address second with
  | nil => exact (List.length_eq_zero_iff.mp same.symm).symm
  | cons byte first ih =>
      cases second with
      | nil => cases same
      | cons byte' second =>
          have head := left.1.symm.trans right.1
          cases head
          rw [ih left.2 right.2 (Nat.succ.inj same)]

theorem Holds.update (holds : Holds image address bytes) {place : Nat} (stored : UInt8)
    (outside : place < address ∨ address + bytes.length ≤ place) :
    Holds (Function.update image place (some stored)) address bytes := by
  induction bytes generalizing address with
  | nil => trivial
  | cons byte bytes ih =>
      rw [List.length_cons] at outside
      refine ⟨?_, ih holds.2 (by omega)⟩
      rw [Function.update_of_ne (by omega), holds.1]

theorem Holds.update_end (holds : Holds image address bytes) (stored : UInt8) :
    Holds (Function.update image (address + bytes.length) (some stored)) address (bytes ++ [stored]) :=
  holds_append.mpr
    ⟨holds.update stored (.inr le_rfl), ⟨Function.update_self _ _ _, trivial⟩⟩

/-- So many bytes have been moved, those at `src` to `dst`. -/
def moved (image : Image) (dst src count : Nat) : Image := fun address =>
  if dst ≤ address ∧ address < dst + count then image (src + (address - dst)) else image address

section Moved

variable {dst src count : Nat}

theorem moved_inside {offset : Nat} (inside : offset < count) :
    moved image dst src count (dst + offset) = image (src + offset) := by
  rw [moved, if_pos (by omega), Nat.add_sub_cancel_left]

theorem moved_outside (outside : address < dst ∨ dst + count ≤ address) :
    moved image dst src count address = image address := by
  rw [moved, if_neg (by omega)]

theorem Holds.moved (holds : Holds image src bytes) (dst : Nat) :
    Holds (moved image dst src bytes.length) dst bytes :=
  holds_of_getElem? fun _ inside => (moved_inside inside).trans (holds.getElem? inside)

theorem moved_zero : moved image dst src 0 = image := by
  funext address
  exact moved_outside (by omega)

/-- The first byte can be moved first if no other is read from where it goes. -/
theorem moved_first (apart : ¬ (src < dst ∧ dst < src + (count + 1))) :
    moved (Function.update image dst (image src)) (dst + 1) (src + 1) count =
      moved image dst src (count + 1) := by
  funext address
  by_cases inside : dst ≤ address ∧ address < dst + (count + 1)
  · obtain ⟨offset, rfl⟩ := Nat.exists_eq_add_of_le inside.1
    rw [moved_inside (by omega)]
    rcases Nat.eq_zero_or_pos offset with rfl | later
    · rw [moved_outside (by omega)]
      exact Function.update_self _ _ _
    · obtain ⟨before, rfl⟩ := Nat.exists_eq_add_of_le later
      have shift (place : Nat) : place + 1 + before = place + (0 + 1 + before) := by omega
      rw [← shift, moved_inside (by omega), shift, Function.update_of_ne (by omega)]
  · rw [moved_outside (by omega), moved_outside (by omega), Function.update_of_ne (by omega)]

/-- The last byte can be moved first if the bytes go up. -/
theorem moved_last (up : src ≤ dst) :
    moved (Function.update image (dst + count) (image (src + count))) dst src count =
      moved image dst src (count + 1) := by
  funext address
  by_cases inside : dst ≤ address ∧ address < dst + (count + 1)
  · obtain ⟨offset, rfl⟩ := Nat.exists_eq_add_of_le inside.1
    have target : moved image dst src (count + 1) (dst + offset) = image (src + offset) :=
      moved_inside (by omega)
    rw [target]
    rcases Nat.lt_or_ge offset count with before | last
    · rw [moved_inside before, Function.update_of_ne (by omega)]
    · obtain rfl : offset = count := by omega
      rw [moved_outside (by omega)]
      exact Function.update_self _ _ _
  · rw [moved_outside (by omega), moved_outside (by omega), Function.update_of_ne (by omega)]

end Moved

/-- So many bytes have been copied upwards, one by one.  Copies that are read again repeat the bytes
between `src` and `dst`. -/
def repeated (image : Image) (dst src count : Nat) : Image := fun address =>
  if dst ≤ address ∧ address < dst + count then image (src + (address - dst) % (dst - src))
  else image address

section Repeated

variable {dst src count offset : Nat}

theorem repeated_inside (inside : offset < count) :
    repeated image dst src count (dst + offset) = image (src + offset % (dst - src)) := by
  rw [repeated, if_pos (by omega), Nat.add_sub_cancel_left]

theorem repeated_outside (outside : address < dst ∨ dst + count ≤ address) :
    repeated image dst src count address = image address := by
  rw [repeated, if_neg (by omega)]

theorem repeated_zero : repeated image dst src 0 = image := by
  funext address
  exact repeated_outside (by omega)

theorem repeated_first :
    repeated (Function.update image dst (image src)) (dst + 1) (src + 1) count =
      repeated image dst src (count + 1) := by
  funext address
  by_cases inside : dst ≤ address ∧ address < dst + (count + 1)
  · obtain ⟨offset, rfl⟩ := Nat.exists_eq_add_of_le inside.1
    rw [repeated_inside (by omega)]
    rcases Nat.eq_zero_or_pos offset with rfl | later
    · rw [repeated_outside (by omega), Nat.zero_mod]
      exact Function.update_self _ _ _
    · obtain ⟨before, rfl⟩ := Nat.exists_eq_add_of_le' later
      have shift : dst + (before + 1) = dst + 1 + before := by omega
      have period : dst + 1 - (src + 1) = dst - src := by omega
      rw [shift, repeated_inside (by omega), period]
      rcases Nat.eq_zero_or_pos (dst - src) with none | some
      · rw [none, Nat.mod_zero, Nat.mod_zero, Function.update_of_ne (by omega), Nat.add_assoc,
          Nat.add_comm 1]
      · have below := Nat.mod_lt before some
        have next : (before + 1) % (dst - src) = (before % (dst - src) + 1) % (dst - src) :=
          (Nat.mod_add_mod before (dst - src) 1).symm
        by_cases last : before % (dst - src) + 1 = dst - src
        · have source : src + 1 + before % (dst - src) = dst := by omega
          rw [source, next, last, Nat.mod_self]
          exact Function.update_self _ _ _
        · have source : src + 1 + before % (dst - src) = src + (before % (dst - src) + 1) := by omega
          have onward : before % (dst - src) + 1 < dst - src := by omega
          rw [source, next, Nat.mod_eq_of_lt onward, Function.update_of_ne (by omega)]
  · rw [repeated_outside (by omega), repeated_outside (by omega), Function.update_of_ne (by omega)]

/-- Copying upwards moves the bytes if and only if those that are overwritten before they are read
repeat themselves. -/
theorem repeated_eq_moved_iff : repeated image dst src count = moved image dst src count ↔
    (src < dst → ∀ offset, dst + offset < src + count → image (src + offset) = image (dst + offset)) := by
  constructor
  · intro same up offset again
    have here := congrFun same (dst + offset)
    have there := congrFun same (dst + (offset + (dst - src)))
    rw [repeated_inside (by omega), moved_inside (by omega)] at here there
    rw [Nat.add_mod_right] at there
    rw [← here, there]
    congr 1
    omega
  · intro periodic
    funext address
    by_cases inside : dst ≤ address ∧ address < dst + count
    · obtain ⟨offset, rfl⟩ := Nat.exists_eq_add_of_le inside.1
      rw [repeated_inside (by omega), moved_inside (by omega)]
      replace inside : offset < count := by omega
      induction offset using Nat.strongRecOn with
      | ind offset ih =>
          by_cases wraps : src < dst ∧ dst - src ≤ offset
          · obtain ⟨before, rfl⟩ := Nat.exists_eq_add_of_le' wraps.2
            have again := periodic wraps.1 before (by omega)
            have source : src + (before + (dst - src)) = dst + before := by omega
            rw [Nat.add_mod_right, source, ← again]
            exact ih before (by omega) (by omega)
          · rcases Nat.eq_zero_or_pos (dst - src) with none | some
            · rw [none, Nat.mod_zero]
            · rw [Nat.mod_eq_of_lt (by omega)]
    · rw [repeated_outside (by omega), moved_outside (by omega)]

end Repeated

theorem within_le (image : Image) (start size : Nat) : Le (within image start size) image := by
  intro address byte read
  rw [within, Option.ite_none_right_eq_some] at read
  exact read.2

theorem outside_le (image : Image) (start size : Nat) : Le (outside image start size) image := by
  intro address byte read
  rw [outside, Option.ite_none_left_eq_some] at read
  exact read.2

theorem Holds.within (holds : Holds image address bytes) (low : start ≤ address)
    (high : address + bytes.length ≤ start + size) : Holds (within image start size) address bytes := by
  induction bytes generalizing address with
  | nil => trivial
  | cons byte bytes ih =>
      rw [List.length_cons] at high
      refine ⟨?_, ih holds.2 (by omega) (by omega)⟩
      rw [Image.within, if_pos (by omega), holds.1]

theorem ofBytes_holds (start : Nat) (bytes : List UInt8) : Holds (ofBytes start bytes) start bytes := by
  have part (front back : List UInt8) :
      Holds (ofBytes start (front ++ back)) (start + front.length) back := by
    induction back generalizing front with
    | nil => trivial
    | cons byte back ih =>
        refine ⟨?_, ?_⟩
        · rw [ofBytes, if_pos (Nat.le_add_right _ _), Nat.add_sub_cancel_left]
          simp
        · have rest := ih (front ++ [byte])
          rwa [List.append_assoc, List.length_append] at rest
  exact part [] bytes

theorem ofBytes_inside {start : Nat} (read : ofBytes start bytes address ≠ none) :
    start ≤ address ∧ address < start + bytes.length := by
  by_contra outside
  refine read ?_
  rw [ofBytes]
  split
  · exact List.getElem?_eq_none (by omega)
  · rfl

end Image

theorem bigEndian32_length (value : Nat) : (bigEndian32 value).length = 4 := rfl

theorem fromBigEndian_foldl (start : Nat) (bytes : List UInt8) :
    bytes.foldl (fun value byte => 256 * value + byte.toNat) start =
      start * 256 ^ bytes.length + fromBigEndian bytes := by
  induction bytes generalizing start with
  | nil => exact (Nat.mul_one start).symm
  | cons byte bytes ih =>
      rw [fromBigEndian, List.foldl_cons, List.foldl_cons, ih, ih, List.length_cons, Nat.pow_succ]
      ring

theorem fromBigEndian_append (first second : List UInt8) : fromBigEndian (first ++ second) =
    fromBigEndian first * 256 ^ second.length + fromBigEndian second := by
  rw [fromBigEndian, List.foldl_append, fromBigEndian_foldl, ← fromBigEndian]

theorem fromBigEndian_lt (bytes : List UInt8) : fromBigEndian bytes < 256 ^ bytes.length := by
  induction bytes with
  | nil => exact Nat.one_pos
  | cons byte bytes ih =>
      have small := byte.toNat_lt
      have most : byte.toNat * 256 ^ bytes.length ≤ 255 * 256 ^ bytes.length :=
        Nat.mul_le_mul_right _ (by omega)
      rw [fromBigEndian, List.foldl_cons, fromBigEndian_foldl, Nat.mul_zero, Nat.zero_add,
        List.length_cons, Nat.pow_succ]
      omega

theorem fromBigEndian_bigEndian32 (fits : value < 2 ^ 32) : fromBigEndian (bigEndian32 value) = value := by
  simp only [fromBigEndian, bigEndian32, List.foldl_cons, List.foldl_nil, UInt8.toNat_ofNat']
  omega

theorem bigEndian32_four (a b c d : UInt8) :
    bigEndian32 (fromBigEndian [a, b, c, d]) = [a, b, c, d] := by
  have ofNat {value : Nat} {byte : UInt8} (low : value % 2 ^ 8 = byte.toNat) :
      UInt8.ofNat value = byte := by
    apply UInt8.toNat_inj.mp
    rw [UInt8.toNat_ofNat', low]
  have first := a.toNat_lt
  have second := b.toNat_lt
  have third := c.toNat_lt
  have fourth := d.toNat_lt
  simp only [fromBigEndian, bigEndian32, List.foldl_cons, List.foldl_nil]
  congr 1
  · exact ofNat (by omega)
  · congr 1
    · exact ofNat (by omega)
    · congr 1
      · exact ofNat (by omega)
      · congr 1
        exact ofNat (by omega)

theorem bigEndian32_fromBigEndian {bytes : List UInt8} (length : bytes.length = 4) :
    bigEndian32 (fromBigEndian bytes) = bytes := by
  match bytes, length with
  | [a, b, c, d], _ => exact bigEndian32_four a b c d

end Ucore.Data
