import Ucore.Mm.Mmu

namespace Ucore.Libs

open Ucore.Data Ucore.Mm

/-! `libs/string.c`: strings in memory, and their comparison with a constant of the kernel. -/

def strlenLoop (memory : KernelMemory) : Nat → (s cnt : Nat) → Except Stop Nat
  | 0, _, _ => .error .outOfFuel
  | fuel + 1, s, cnt => do
      let byte ← loadByte memory s
      if byte ≠ 0 then strlenLoop memory fuel (uint64 (s + 1)) (uint64 (cnt + 1)) else .ok cnt

def strlen (memory : KernelMemory) (s : Nat) : Bounded Nat := fun fuel => strlenLoop memory fuel s 0

/-- The constant is given without its terminator, which is read as 0. -/
def strncmp (memory : KernelMemory) (s1 : Nat) (s2 : List UInt8) : (n : Nat) → Except Stop Int
  | 0 => .ok 0
  | n + 1 => do
      let byte ← loadByte memory s1
      if byte ≠ 0 ∧ byte = s2.headD 0 then
        strncmp memory (uint64 (s1 + 1)) s2.tail n
      else
        .ok (byte.toNat - (s2.headD 0).toNat)

def strcmp (memory : KernelMemory) (s1 : Nat) : (s2 : List UInt8) → Except Stop Int
  | [] => do
      let byte ← loadByte memory s1
      .ok byte.toNat
  | constant :: s2 => do
      let byte ← loadByte memory s1
      if byte ≠ 0 ∧ byte = constant then
        strcmp memory (uint64 (s1 + 1)) s2
      else
        .ok (byte.toNat - constant.toNat)

variable {memory : KernelMemory} {s s1 cnt n length : Nat} {bytes rest s2 name : List UInt8}

/-- A string and its terminator lie at the address. -/
structure StringAt (image : Image) (address : Nat) (bytes : List UInt8) : Prop where
  holds : image.Holds address (bytes ++ [0])
  noZero : 0 ∉ bytes

/-- The bytes of a text, without a terminator. -/
def bytesOf (text : String) : List UInt8 := text.toList.map Char.toUInt8

/-- Where the examples have their strings. -/
def stringAddress : Nat := 0xFFFFFFFFC0300000

/-- Memory that holds one string. -/
def stringMemory (bytes : List UInt8) (fits : bytes.length < 2 ^ 20) : KernelMemory where
  image := Image.ofBytes stringAddress (bytes ++ [0])
  mapped address read := by
    obtain ⟨lower, upper⟩ := Image.ofBytes_inside read
    simp only [List.length_append, List.length_singleton, stringAddress, mappedBase] at *
    omega

theorem stringMemory_string (bytes : List UInt8) (fits : bytes.length < 2 ^ 20) (noZero : 0 ∉ bytes) :
    StringAt (stringMemory bytes fits).image stringAddress bytes :=
  ⟨Image.ofBytes_holds _ _, noZero⟩

theorem StringAt.tail {image : Image} {address : Nat} {byte : UInt8}
    (string : StringAt image address (byte :: bytes)) : StringAt image (address + 1) bytes :=
  ⟨string.holds.2, fun zero => string.noZero (List.mem_cons_of_mem _ zero)⟩

theorem StringAt.head {image : Image} (string : StringAt image s bytes) : image s = some (bytes.headD 0) := by
  cases bytes with
  | nil => exact string.holds.1
  | cons byte bytes => exact string.holds.1

theorem StringAt.skip {image : Image} (string : StringAt image s (bytes ++ rest)) :
    StringAt image (s + bytes.length) rest := by
  induction bytes generalizing s with
  | nil => exact string
  | cons byte bytes ih =>
      have shift : s + (byte :: bytes).length = s + 1 + bytes.length := by
        rw [List.length_cons]
        omega
      rw [shift]
      exact ih string.tail

theorem next_address (memory : KernelMemory) {byte : UInt8} (read : memory.image s = some byte) :
    s + 1 ≤ 2 ^ 64 :=
  (memory.mapped s (by rw [read]; exact Option.some_ne_none _)).2

theorem StringAt.uint64 {byte : UInt8} (string : StringAt memory.image s (byte :: bytes)) :
    StringAt memory.image (uint64 (s + 1)) bytes :=
  ⟨(memory.holds_uint64 (next_address memory string.holds.1)).mpr string.tail.holds, string.tail.noZero⟩

/-- A byte of a string is not the last byte of the address space. -/
theorem StringAt.next {byte : UInt8} (string : StringAt memory.image s (byte :: bytes)) :
    Mm.uint64 (s + 1) = s + 1 := by
  have behind : memory.image (s + 1) ≠ none :=
    string.tail.holds.readable le_rfl (by simp)
  exact uint64_of_lt (memory.mapped _ behind).2

theorem strlenLoop_returns (string : StringAt memory.image s bytes) (small : cnt + bytes.length < 2 ^ 64) :
    Returns (fun fuel => strlenLoop memory fuel s cnt) (cnt + bytes.length) := by
  induction bytes generalizing s cnt with
  | nil =>
      refine Returns.round (Returns.of_constant fun fuel => ?_)
      exact bind_eq_ok.mpr ⟨0, loadByte_ok.mpr string.holds.1, if_neg (by simp)⟩
  | cons byte bytes ih =>
      have isByte : byte ≠ 0 := fun zero => string.noZero (by simp [zero])
      rw [List.length_cons] at small ⊢
      have counted : Mm.uint64 (cnt + 1) = cnt + 1 := uint64_of_lt (by omega)
      obtain ⟨enough, rest⟩ := ih string.uint64 (by omega : cnt + 1 + bytes.length < 2 ^ 64)
      refine Returns.round ⟨enough, fun fuel more => ?_⟩
      refine bind_eq_ok.mpr ⟨byte, loadByte_ok.mpr string.holds.1, ?_⟩
      have shift : cnt + (bytes.length + 1) = cnt + 1 + bytes.length := by omega
      rw [if_pos isByte, counted, shift]
      exact rest fuel more

theorem strlenLoop_inv {fuel : Nat} (result : strlenLoop memory fuel s cnt = .ok length) :
    ∃ bytes, StringAt memory.image s bytes ∧ (cnt + bytes.length < 2 ^ 64 → length = cnt + bytes.length) := by
  induction fuel generalizing s cnt with
  | zero => cases result
  | succ fuel ih =>
      obtain ⟨byte, read, result⟩ := bind_eq_ok.mp result
      have isRead := loadByte_ok.mp read
      by_cases zero : byte = 0
      · rw [if_neg (not_not.mpr zero)] at result
        cases result
        subst zero
        exact ⟨[], ⟨⟨isRead, trivial⟩, List.not_mem_nil⟩, fun _ => rfl⟩
      · rw [if_pos zero] at result
        obtain ⟨bytes, string, counted⟩ := ih result
        have holds := (memory.holds_uint64 (next_address memory isRead)).mp string.holds
        refine ⟨byte :: bytes, ⟨⟨isRead, holds⟩, fun member => ?_⟩, fun small => ?_⟩
        · rcases List.mem_cons.mp member with same | later
          · exact zero same.symm
          · exact string.noZero later
        · rw [List.length_cons] at small ⊢
          rw [uint64_of_lt (by omega)] at counted
          rw [counted (by omega)]
          omega

theorem StringAt.length_lt (string : StringAt memory.image s bytes) : bytes.length < 2 ^ 30 := by
  have bounds := memory.holds_le string.holds (by simp)
  rw [List.length_append, List.length_singleton] at bounds
  simp only [mappedBase] at bounds
  omega

theorem strlen_returns (string : StringAt memory.image s bytes) :
    Returns (strlen memory s) bytes.length := by
  have small := string.length_lt
  have counted := strlenLoop_returns string (by omega : 0 + bytes.length < 2 ^ 64)
  rwa [Nat.zero_add] at counted

theorem strlen_inv {fuel : Nat} (result : strlen memory s fuel = .ok length) :
    ∃ bytes, StringAt memory.image s bytes ∧ length = bytes.length := by
  obtain ⟨bytes, string, counted⟩ := strlenLoop_inv result
  have small := string.length_lt
  rw [Nat.zero_add] at counted
  exact ⟨bytes, string, counted (by omega)⟩

/-! Comparison with a constant. -/

theorem sub_ne_zero_of_ne {first second : UInt8} (different : first ≠ second) :
    (first.toNat : Int) - second.toNat ≠ 0 := by
  intro zero
  exact different (UInt8.toNat_inj.mp (by omega))

theorem strncmp_spec (string : StringAt memory.image s1 name) (noZero : 0 ∉ s2) :
    ∃ result, strncmp memory s1 s2 s2.length = .ok result ∧ (result = 0 ↔ s2 <+: name) := by
  induction s2 generalizing s1 name with
  | nil => exact ⟨0, rfl, iff_of_true rfl List.nil_prefix⟩
  | cons constant s2 ih =>
      have constantByte : constant ≠ 0 := fun zero => noZero (by simp [zero])
      cases name with
      | nil =>
          refine ⟨0 - constant.toNat, bind_eq_ok.mpr ⟨0, loadByte_ok.mpr string.holds.1, ?_⟩, ?_⟩
          · rw [if_neg (by simp)]
            rfl
          · have different := sub_ne_zero_of_ne (Ne.symm constantByte)
            exact iff_of_false different (by simp)
      | cons byte name =>
          have isByte : byte ≠ 0 := fun zero => string.noZero (by simp [zero])
          by_cases same : byte = constant
          · obtain ⟨result, compared, zero⟩ := ih string.uint64 fun zero => noZero (List.mem_cons_of_mem _ zero)
            refine ⟨result, bind_eq_ok.mpr ⟨byte, loadByte_ok.mpr string.holds.1, ?_⟩, ?_⟩
            · rw [if_pos ⟨isByte, same⟩]
              exact compared
            · rw [zero, same, List.prefix_cons_inj]
          · refine ⟨byte.toNat - constant.toNat,
              bind_eq_ok.mpr ⟨byte, loadByte_ok.mpr string.holds.1, ?_⟩, ?_⟩
            · rw [if_neg fun both => same both.2]
              rfl
            · refine iff_of_false (sub_ne_zero_of_ne same) fun isPrefix => same ?_
              exact (List.cons_prefix_cons.mp isPrefix).1.symm

/-- The bytes up to the first difference from the constant can be read. -/
def Compares (image : Image) : (s2 : List UInt8) → (address : Nat) → (equal : Bool) → Prop
  | [], address, equal => ∃ byte, image address = some byte ∧ equal = decide (byte = 0)
  | constant :: s2, address, equal => ∃ byte, image address = some byte ∧
      if byte = constant then Compares image s2 (address + 1) equal else equal = false

theorem compares_read {image : Image} {address : Nat} {equal : Bool}
    (compares : Compares image s2 address equal) : image address ≠ none := by
  cases s2 with
  | nil =>
      obtain ⟨byte, read, _⟩ := compares
      rw [read]
      exact Option.some_ne_none byte
  | cons constant s2 =>
      obtain ⟨byte, read, _⟩ := compares
      rw [read]
      exact Option.some_ne_none byte

theorem compares_uint64 {equal : Bool} (bound : s1 ≤ 2 ^ 64) :
    Compares memory.image s2 (uint64 s1) equal ↔ Compares memory.image s2 s1 equal := by
  rcases Nat.eq_or_lt_of_le bound with top | inside
  · have wrapped := memory.image_uint64 bound
    have none : memory.image s1 = none := by
      apply Classical.byContradiction
      intro read
      have inside := (memory.mapped s1 read).2
      omega
    exact iff_of_false (fun compares => compares_read compares (wrapped.trans none))
      fun compares => compares_read compares none
  · rw [uint64_of_lt inside]

theorem strcmp_compares {equal : Bool} (compares : Compares memory.image s2 s1 equal) (noZero : 0 ∉ s2) :
    ∃ result, strcmp memory s1 s2 = .ok result ∧ decide (result = 0) = equal := by
  induction s2 generalizing s1 with
  | nil =>
      obtain ⟨byte, read, rfl⟩ := compares
      refine ⟨byte.toNat, bind_eq_ok.mpr ⟨byte, loadByte_ok.mpr read, rfl⟩, ?_⟩
      have zero : (byte.toNat : Int) = 0 ↔ byte = 0 := by
        rw [← UInt8.toNat_inj]
        exact Int.natCast_eq_zero
      simp only [zero]
  | cons constant s2 ih =>
      obtain ⟨byte, read, onward⟩ := compares
      have constantByte : constant ≠ 0 := fun zero => noZero (by simp [zero])
      by_cases same : byte = constant
      · rw [if_pos same, ← compares_uint64 (next_address memory read)] at onward
        obtain ⟨result, compared, equal⟩ := ih onward fun zero => noZero (List.mem_cons_of_mem _ zero)
        refine ⟨result, bind_eq_ok.mpr ⟨byte, loadByte_ok.mpr read, ?_⟩, equal⟩
        rw [if_pos ⟨same ▸ constantByte, same⟩]
        exact compared
      · rw [if_neg same] at onward
        refine ⟨byte.toNat - constant.toNat, bind_eq_ok.mpr ⟨byte, loadByte_ok.mpr read, ?_⟩, ?_⟩
        · rw [if_neg fun both => same both.2]
        · rw [onward]
          exact decide_eq_false (sub_ne_zero_of_ne same)

theorem strcmp_inv {result : Int} (compared : strcmp memory s1 s2 = .ok result) (noZero : 0 ∉ s2) :
    ∃ equal, Compares memory.image s2 s1 equal := by
  induction s2 generalizing s1 with
  | nil =>
      obtain ⟨byte, read, _⟩ := bind_eq_ok.mp compared
      exact ⟨_, byte, loadByte_ok.mp read, rfl⟩
  | cons constant s2 ih =>
      obtain ⟨byte, read, compared⟩ := bind_eq_ok.mp compared
      have isRead := loadByte_ok.mp read
      have constantByte : constant ≠ 0 := fun zero => noZero (by simp [zero])
      by_cases same : byte = constant
      · rw [if_pos ⟨same ▸ constantByte, same⟩] at compared
        obtain ⟨equal, compares⟩ := ih compared fun zero => noZero (List.mem_cons_of_mem _ zero)
        refine ⟨equal, byte, isRead, ?_⟩
        rw [if_pos same]
        exact (compares_uint64 (next_address memory isRead)).mp compares
      · exact ⟨false, byte, isRead, by rw [if_neg same]⟩

theorem StringAt.compares {image : Image} (string : StringAt image s1 name) (noZero : 0 ∉ s2) :
    Compares image s2 s1 (decide (name = s2)) := by
  induction s2 generalizing s1 name with
  | nil =>
      cases name with
      | nil => exact ⟨0, string.holds.1, rfl⟩
      | cons byte name =>
          have isByte : byte ≠ 0 := fun zero => string.noZero (by simp [zero])
          exact ⟨byte, string.holds.1, by simp [isByte]⟩
  | cons constant s2 ih =>
      have constantByte : constant ≠ 0 := fun zero => noZero (by simp [zero])
      cases name with
      | nil =>
          refine ⟨0, string.holds.1, ?_⟩
          rw [if_neg (Ne.symm constantByte)]
          rfl
      | cons byte name =>
          refine ⟨byte, string.holds.1, ?_⟩
          by_cases same : byte = constant
          · subst same
            have rest := ih string.tail fun zero => noZero (List.mem_cons_of_mem _ zero)
            simpa using rest
          · simp [same]

end Ucore.Libs
