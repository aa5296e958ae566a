import Ucore.Libs.StringOps

namespace Ucore.Libs.StringOps

open Ucore.Data Ucore.Mm

/-! The comparisons and searches of `libs/string.c`. -/

variable {image : Image} {n s address : Nat} {bytes first second : List UInt8} {byte : UInt8}

/-- The difference of the first two bytes that differ, where the end of a string is a zero. -/
def difference : (first second : List UInt8) → Int
  | [], [] => 0
  | [], byte :: _ => 0 - byte.toNat
  | byte :: _, [] => byte.toNat - 0
  | byte :: first, other :: second =>
      if byte = other then difference first second else byte.toNat - other.toNat

/-- The sign of the result is that of the comparison in the order of the dictionary. -/
structure Orders (result : Int) (first second : List UInt8) : Prop where
  less : result < 0 ↔ first < second
  equal : result = 0 ↔ first = second
  greater : 0 < result ↔ second < first

namespace Orders

variable {result : Int} {other : UInt8}

theorem swap (orders : Orders result first second) : Orders (-result) second first where
  less := neg_lt_zero.trans orders.greater
  equal := neg_eq_zero.trans (orders.equal.trans eq_comm)
  greater := neg_pos.trans orders.less

theorem refl (bytes : List UInt8) : Orders 0 bytes bytes where
  less := iff_of_false (lt_irrefl _) (List.lt_irrefl bytes)
  equal := iff_of_true rfl rfl
  greater := iff_of_false (lt_irrefl _) (List.lt_irrefl bytes)

theorem cons (orders : Orders result first second) (byte : UInt8) :
    Orders result (byte :: first) (byte :: second) where
  less := by
    rw [orders.less, List.cons_lt_cons_iff]
    simp
  equal := by
    rw [orders.equal, List.cons_inj_right]
  greater := by
    rw [orders.greater, List.cons_lt_cons_iff]
    simp

theorem of_ne (different : byte ≠ other) (first second : List UInt8) :
    Orders (byte.toNat - other.toNat) (byte :: first) (other :: second) where
  less := by
    rw [List.cons_lt_cons_iff, UInt8.lt_iff_toNat_lt]
    simp only [different, false_and, or_false]
    omega
  equal := iff_of_false (sub_ne_zero_of_ne different) fun same => different (List.cons.inj same).1
  greater := by
    rw [List.cons_lt_cons_iff, UInt8.lt_iff_toNat_lt]
    simp only [different.symm, false_and, or_false]
    omega

theorem nil_cons (isByte : byte ≠ 0) (bytes : List UInt8) :
    Orders (0 - byte.toNat) [] (byte :: bytes) := by
  have positive : 0 < byte.toNat := Nat.pos_of_ne_zero fun zero => isByte (UInt8.toNat_inj.mp zero)
  refine ⟨iff_of_true (by omega) (List.nil_lt_cons ..), iff_of_false (by omega) (by simp),
    iff_of_false (by omega) (by simp)⟩

end Orders

theorem difference_orders (noZero : 0 ∉ first) (noZeroSecond : 0 ∉ second) :
    Orders (difference first second) first second := by
  induction first generalizing second with
  | nil =>
      cases second with
      | nil => exact .refl []
      | cons other second =>
          have isByte : other ≠ 0 := fun zero => noZeroSecond (by simp [zero])
          exact .nil_cons isByte second
  | cons byte first ih =>
      have isByte : byte ≠ 0 := fun zero => noZero (by simp [zero])
      cases second with
      | nil =>
          have swapped := (Orders.nil_cons isByte first).swap
          simpa [difference] using swapped
      | cons other second =>
          simp only [difference]
          by_cases same : byte = other
          · subst same
            rw [if_pos rfl]
            exact (ih (fun zero => noZero (List.mem_cons_of_mem _ zero))
              fun zero => noZeroSecond (List.mem_cons_of_mem _ zero)).cons byte
          · rw [if_neg same]
            exact .of_ne same first second

/-- The comparison of two strings, one pair of bytes after the other. -/
theorem difference_eq (noZero : 0 ∉ first) (noZeroSecond : 0 ∉ second) :
    difference first second =
      if first.headD 0 ≠ 0 ∧ first.headD 0 = second.headD 0 then difference first.tail second.tail
      else (first.headD 0).toNat - (second.headD 0).toNat := by
  cases first with
  | nil =>
      cases second with
      | nil => simp [difference]
      | cons other second => simp [difference]
  | cons byte first =>
      have isByte : byte ≠ 0 := fun zero => noZero (by simp [zero])
      cases second with
      | nil => simp [difference, isByte]
      | cons other second => simp [difference, isByte]

theorem difference_take (noZero : 0 ∉ first) (noZeroSecond : 0 ∉ second)
    (enough : min first.length second.length < n) :
    difference (first.take n) (second.take n) = difference first second := by
  induction n generalizing first second with
  | zero => omega
  | succ n ih =>
      cases first with
      | nil =>
          cases second with
          | nil => rfl
          | cons other second => rfl
      | cons byte first =>
          cases second with
          | nil => rfl
          | cons other second =>
              simp only [List.length_cons] at enough
              simp only [List.take_succ_cons, difference]
              split
              · exact ih (fun zero => noZero (List.mem_cons_of_mem _ zero))
                  (fun zero => noZeroSecond (List.mem_cons_of_mem _ zero)) (by omega)
              · rfl

theorem head_take (bytes : List UInt8) (n : Nat) :
    (bytes.take (n + 1)).headD 0 = bytes.headD 0 ∧ (bytes.take (n + 1)).tail = bytes.tail.take n := by
  cases bytes with
  | nil => simp
  | cons byte bytes => exact ⟨rfl, rfl⟩

theorem string_next (string : StringAt image address bytes) (more : bytes.headD 0 ≠ 0)
    (fits : address + bytes.length < 2 ^ 64) :
    StringAt image (uint64 (address + 1)) bytes.tail ∧
      uint64 (address + 1) + bytes.tail.length < 2 ^ 64 ∧ bytes.length = bytes.tail.length + 1 := by
  cases bytes with
  | nil => exact absurd rfl more
  | cons byte bytes =>
      rw [List.length_cons] at fits
      rw [uint64_of_lt (by omega)]
      exact ⟨string.tail, by rw [List.tail_cons]; omega, rfl⟩

section Comparison

variable {s1 s2 : Nat} (string : StringAt image s1 first) (stringSecond : StringAt image s2 second)
  (fits : s1 + first.length < 2 ^ 64) (fitsSecond : s2 + second.length < 2 ^ 64)

include string stringSecond fits fitsSecond

theorem strncmp_difference (n : Nat) :
    strncmp image n s1 s2 = .ok (difference (first.take n) (second.take n)) := by
  induction n generalizing first second s1 s2 with
  | zero => rfl
  | succ n ih =>
      rw [strncmp, readChar_ok.mpr string.head, readChar_ok.mpr stringSecond.head, ok_bind, ok_bind,
        difference_eq (fun zero => string.noZero (List.mem_of_mem_take zero))
          fun zero => stringSecond.noZero (List.mem_of_mem_take zero)]
      simp only [head_take]
      split
      · rename_i equal
        obtain ⟨tail, fits, _⟩ := string_next string equal.1 fits
        obtain ⟨tailSecond, fitsSecond, _⟩ := string_next stringSecond (equal.2 ▸ equal.1) fitsSecond
        exact ih tail tailSecond fits fitsSecond
      · rfl

theorem strcmp_difference :
    Returns (fun fuel => strcmp image fuel s1 s2) (difference first second) := by
  induction first generalizing second s1 s2 with
  | nil =>
      refine Returns.round (Returns.of_constant fun fuel => ?_)
      rw [strcmp, readChar_ok.mpr string.head, readChar_ok.mpr stringSecond.head, ok_bind, ok_bind,
        difference_eq string.noZero stringSecond.noZero, if_neg (by simp), if_neg (by simp)]
  | cons byte first ih =>
      apply Returns.round
      simp only [strcmp, readChar_ok.mpr string.head, readChar_ok.mpr stringSecond.head, ok_bind]
      rw [difference_eq string.noZero stringSecond.noZero]
      split
      · rename_i equal
        obtain ⟨tail, fits, _⟩ := string_next string equal.1 fits
        obtain ⟨tailSecond, fitsSecond, _⟩ := string_next stringSecond (equal.2 ▸ equal.1) fitsSecond
        exact ih tail tailSecond fits fitsSecond
      · exact .of_constant fun _ => rfl

theorem memcmp_difference (inside : n ≤ min first.length second.length + 1) :
    memcmp image n s1 s2 = .ok (difference (first.take n) (second.take n)) := by
  induction n generalizing first second s1 s2 with
  | zero => rfl
  | succ n ih =>
      rw [memcmp, readChar_ok.mpr string.head, readChar_ok.mpr stringSecond.head, ok_bind, ok_bind,
        difference_eq (fun zero => string.noZero (List.mem_of_mem_take zero))
          fun zero => stringSecond.noZero (List.mem_of_mem_take zero)]
      simp only [head_take]
      by_cases same : first.headD 0 = second.headD 0
      · rw [if_neg (not_not.mpr same)]
        by_cases more : first.headD 0 ≠ 0
        · obtain ⟨tail, fits, length⟩ := string_next string more fits
          obtain ⟨tailSecond, fitsSecond, lengthSecond⟩ := string_next stringSecond (same ▸ more) fitsSecond
          rw [if_pos ⟨more, same⟩]
          exact ih tail tailSecond fits fitsSecond (by omega)
        · -- both strings end here
          have ended : first = [] := by
            cases first with
            | nil => rfl
            | cons byte first =>
                have isByte : byte ≠ 0 := fun zero => string.noZero (by simp [zero])
                exact absurd isByte more
          subst ended
          obtain rfl : n = 0 := by simp at inside; omega
          rw [if_neg fun both => more both.1, same, sub_self]
          rfl
      · rw [if_pos same, if_neg fun both => same both.2]

/-- `strcmp` and `strncmp` order strings as a dictionary does, and agree with `memcmp` up to the end
of the shorter string. -/
theorem comparisons_agree :
    ∃ result, Returns (fun fuel => strcmp image fuel s1 s2) result ∧ Orders result first second ∧
      memcmp image (min first.length second.length + 1) s1 s2 = .ok result ∧
      ∀ n, ∃ limited, strncmp image n s1 s2 = .ok limited ∧
        Orders limited (first.take n) (second.take n) ∧
        memcmp image (min n (min first.length second.length + 1)) s1 s2 = .ok limited := by
  refine ⟨_, strcmp_difference string stringSecond fits fitsSecond,
    difference_orders string.noZero stringSecond.noZero, ?_, fun n =>
      ⟨_, strncmp_difference string stringSecond fits fitsSecond n, ?_, ?_⟩⟩
  · rw [memcmp_difference string stringSecond fits fitsSecond le_rfl,
      difference_take string.noZero stringSecond.noZero (by omega)]
  · exact difference_orders (fun zero => string.noZero (List.mem_of_mem_take zero))
      fun zero => stringSecond.noZero (List.mem_of_mem_take zero)
  · rw [memcmp_difference string stringSecond fits fitsSecond (min_le_right _ _)]
    rcases Nat.le_total n (min first.length second.length + 1) with within | beyond
    · rw [min_eq_left within]
    · rw [min_eq_right beyond, difference_take string.noZero stringSecond.noZero (by omega),
        difference_take string.noZero stringSecond.noZero (by omega)]

end Comparison

theorem comparisons_agree_text : ∃ result, Returns (fun fuel => strcmp textImage fuel 8 11) result ∧
    result < 0 ∧ strncmp textImage 2 8 11 = .ok 0 := by
  obtain ⟨string, stringSecond⟩ := textImage_strings
  obtain ⟨result, returns, orders, _, limited⟩ :=
    comparisons_agree string stringSecond (by decide) (by decide)
  obtain ⟨zero, compared, ordersTwo, _⟩ := limited 2
  obtain rfl : zero = 0 := ordersTwo.equal.mpr rfl
  exact ⟨result, returns, orders.less.mpr (by decide), compared⟩

theorem memcmp_orders {s1 s2 : Nat} (holds : image.Holds s1 first) (holdsSecond : image.Holds s2 second)
    (length : first.length = second.length) (fits : s1 + first.length ≤ 2 ^ 64)
    (fitsSecond : s2 + second.length ≤ 2 ^ 64) :
    ∃ result, memcmp image first.length (uint64 s1) (uint64 s2) = .ok result ∧
      Orders result first second := by
  induction first generalizing second s1 s2 with
  | nil =>
      obtain rfl : second = [] := List.length_eq_zero_iff.mp length.symm
      exact ⟨0, rfl, .refl []⟩
  | cons byte first ih =>
      cases second with
      | nil => simp at length
      | cons other second =>
          rw [List.length_cons] at fits fitsSecond
          have next : uint64 (uint64 s1 + 1) = uint64 (s1 + 1) := uint64_next s1 0
          have nextSecond : uint64 (uint64 s2 + 1) = uint64 (s2 + 1) := uint64_next s2 0
          have read : readChar image (uint64 s1) = .ok byte := by
            rw [uint64_of_lt (by omega)]
            exact readChar_ok.mpr holds.1
          have readSecond : readChar image (uint64 s2) = .ok other := by
            rw [uint64_of_lt (by omega)]
            exact readChar_ok.mpr holdsSecond.1
          rw [List.length_cons, memcmp, read, readSecond, ok_bind, ok_bind, next, nextSecond]
          by_cases same : byte = other
          · subst same
            obtain ⟨result, compared, orders⟩ :=
              ih holds.2 holdsSecond.2 (Nat.succ.inj length) (by omega) (by omega)
            exact ⟨result, by rw [if_neg (not_not.mpr rfl), compared], orders.cons byte⟩
          · exact ⟨_, if_pos same, .of_ne same first second⟩

/-! A constant of the kernel may stand for the address at which it is stored. -/

section Constant

variable {memory : KernelMemory} {s1 s2 : Nat} {name constant : List UInt8}

theorem string_fits (string : StringAt memory.image s1 name) : s1 + name.length < 2 ^ 64 :=
  (memory.mapped _ (string.holds.readable (Nat.le_add_right _ _) (by simp))).2

theorem strcmp_constant (string : StringAt memory.image s1 name) (noZero : 0 ∉ constant) :
    Libs.strcmp memory s1 constant = .ok (difference name constant) := by
  induction constant generalizing s1 name with
  | nil =>
      rw [Libs.strcmp, loadByte_ok.mpr string.head, ok_bind]
      cases name with
      | nil => rfl
      | cons byte name => simp [difference]
  | cons other constant ih =>
      rw [Libs.strcmp, loadByte_ok.mpr string.head, ok_bind, difference_eq string.noZero noZero]
      rw [List.headD_cons, List.tail_cons]
      by_cases equal : name.headD 0 ≠ 0 ∧ name.headD 0 = other
      · obtain ⟨tail, _, _⟩ := string_next string equal.1 (string_fits string)
        rw [if_pos equal, if_pos equal]
        exact ih tail fun zero => noZero (List.mem_cons_of_mem _ zero)
      · rw [if_neg equal, if_neg equal]

theorem strncmp_constant (string : StringAt memory.image s1 name) (noZero : 0 ∉ constant) (n : Nat) :
    Libs.strncmp memory s1 constant n = .ok (difference (name.take n) (constant.take n)) := by
  induction n generalizing s1 name constant with
  | zero => rfl
  | succ n ih =>
      rw [Libs.strncmp, loadByte_ok.mpr string.head, ok_bind,
        difference_eq (fun zero => string.noZero (List.mem_of_mem_take zero))
          fun zero => noZero (List.mem_of_mem_take zero)]
      simp only [head_take]
      split
      · rename_i equal
        obtain ⟨tail, _, _⟩ := string_next string equal.1 (string_fits string)
        exact ih tail fun zero => noZero (List.mem_of_mem_tail zero)
      · rfl

theorem constant_stands (string : StringAt memory.image s1 name)
    (stored : StringAt memory.image s2 constant) :
    (∀ result, Returns (fun fuel => strcmp memory.image fuel s1 s2) result ↔
        Libs.strcmp memory s1 constant = .ok result) ∧
      ∀ n, strncmp memory.image n s1 s2 = Libs.strncmp memory s1 constant n := by
  have compared := strcmp_difference string stored (string_fits string) (string_fits stored)
  refine ⟨fun result => ?_, fun n => ?_⟩
  · rw [strcmp_constant string stored.noZero]
    constructor
    · intro returns
      rw [compared.unique returns]
    · intro same
      cases same
      exact compared
  · rw [strncmp_constant string stored.noZero,
      strncmp_difference string stored (string_fits string) (string_fits stored)]

end Constant

/-! Search. -/

/-- `strfind` finds the first occurrence or the terminator, and `strchr` the first occurrence or
nothing, also if the character is the terminator. -/
theorem strfind_strchr (string : StringAt image s bytes) (fits : s + bytes.length < 2 ^ 64) (c : UInt8) :
    Returns (fun fuel => strfind image c fuel s) (s + bytes.idxOf c) ∧
      Returns (fun fuel => strchr image c fuel s)
        (if c ∈ bytes then some (s + bytes.idxOf c) else none) := by
  induction bytes generalizing s with
  | nil =>
      constructor
      · refine Returns.round (Returns.of_constant fun fuel => ?_)
        rw [strfind, readChar_ok.mpr string.head, ok_bind, if_neg (by simp)]
        rfl
      · refine Returns.round (Returns.of_constant fun fuel => ?_)
        rw [strchr, readChar_ok.mpr string.head, ok_bind, if_neg (by simp), if_neg (by simp)]
  | cons byte bytes ih =>
      have isByte : byte ≠ 0 := fun zero => string.noZero (by simp [zero])
      rw [List.length_cons] at fits
      have next : uint64 (s + 1) = s + 1 := uint64_of_lt (by omega)
      have head : readChar image s = .ok byte := readChar_ok.mpr string.head
      obtain ⟨found, chosen⟩ := ih string.tail (by omega)
      by_cases here : byte = c
      · subst here
        constructor
        · refine Returns.round (Returns.of_constant fun fuel => ?_)
          rw [strfind, head, ok_bind, if_neg (by simp)]
          simp
        · refine Returns.round (Returns.of_constant fun fuel => ?_)
          rw [strchr, head, ok_bind, if_pos isByte, if_pos rfl]
          simp
      · have shift : s + (byte :: bytes).idxOf c = s + 1 + bytes.idxOf c := by
          rw [List.idxOf_cons, beq_false_of_ne here, cond_false]
          omega
        have mem : c ∈ byte :: bytes ↔ c ∈ bytes := by simp [Ne.symm here]
        rw [shift]
        simp only [mem]
        constructor
        · apply Returns.round
          simp only [strfind, head, ok_bind, if_pos (And.intro isByte here), next]
          exact found
        · apply Returns.round
          simp only [strchr, head, ok_bind, if_pos isByte, if_neg here, next]
          exact chosen

example : strfind textImage 98 9 11 = .ok 12 ∧ strchr textImage 0 9 11 = .ok none := ⟨rfl, rfl⟩

end Ucore.Libs.StringOps
