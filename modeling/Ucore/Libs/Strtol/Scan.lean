import Ucore.Libs.Strtol.Grammar
import Mathlib.Data.Nat.Digits.Defs

namespace Ucore.Libs.Strtol

open Ucore.Data Ucore.Mm

/-! What `strtol` does on a string. -/

variable {memory : KernelMemory} {bytes : List UInt8} {s base : Nat}

theorem blanks_returns (string : StringAt memory.image s bytes) :
    ∃ blanks rest, bytes = blanks ++ rest ∧ (∀ c ∈ blanks, isBlank c = true) ∧
      (∀ c, rest.head? = some c → isBlank c ≠ true) ∧
      StringAt memory.image (s + blanks.length) rest ∧
      Returns (fun fuel => strtolBlanks memory fuel s) (s + blanks.length) := by
  induction bytes generalizing s with
  | nil =>
      refine ⟨[], [], rfl, by simp, by simp, string, .round (.of_constant fun fuel => ?_)⟩
      simp only [strtolBlanks, loadByte_ok.mpr string.holds.1, ok_bind]
      rfl
  | cons first bytes ih =>
      have read := loadByte_ok.mpr string.holds.1
      by_cases blank : isBlank first = true
      · obtain ⟨blanks, rest, split, all, stops, onward, returns⟩ := ih string.tail
        have shift : s + (first :: blanks).length = s + 1 + blanks.length := by
          rw [List.length_cons]
          omega
        refine ⟨first :: blanks, rest, by rw [split, List.cons_append],
          List.forall_mem_cons.mpr ⟨blank, all⟩, stops, shift ▸ onward, .round ?_⟩
        simp only [strtolBlanks, read, ok_bind, if_pos blank, string.next, shift]
        exact returns
      · refine ⟨[], first :: bytes, rfl, by simp, fun c head => ?_, string,
          .round (.of_constant fun fuel => ?_)⟩
        · cases head
          exact blank
        · simp only [strtolBlanks, read, ok_bind, if_neg blank]
          rfl

theorem sign_ok (string : StringAt memory.image s bytes) :
    ∃ sign negative rest, bytes = sign ++ rest ∧ Sign sign negative ∧
      (sign = [] → ∀ c, rest.head? = some c → c ≠ '+'.toUInt8 ∧ c ≠ '-'.toUInt8) ∧
      StringAt memory.image (s + sign.length) rest ∧
      strtolSign memory s = .ok (s + sign.length, negative) := by
  cases bytes with
  | nil =>
      refine ⟨[], false, [], rfl, .none, by simp, string, ?_⟩
      simp only [strtolSign, loadByte_ok.mpr string.holds.1, ok_bind]
      rfl
  | cons first bytes =>
      have read := loadByte_ok.mpr string.holds.1
      by_cases plus : first = '+'.toUInt8
      · subst plus
        refine ⟨_, false, bytes, rfl, .plus, by simp, string.tail, ?_⟩
        simp only [strtolSign, read, ok_bind, if_true, string.next]
        rfl
      · by_cases minus : first = '-'.toUInt8
        · subst minus
          refine ⟨_, true, bytes, rfl, .minus, by simp, string.tail, ?_⟩
          simp only [strtolSign, read, ok_bind, if_neg plus, if_true, string.next]
          rfl
        · refine ⟨[], false, first :: bytes, rfl, .none, fun _ c head => ?_, string, ?_⟩
          · cases head
            exact ⟨plus, minus⟩
          · simp only [strtolSign, read, ok_bind, if_neg plus, if_neg minus]
            rfl

theorem hex_ok (string : StringAt memory.image s bytes) (base : Nat) :
    strtolHex memory s base =
      .ok (decide ((base = 0 ∨ base = 16) ∧ ['0'.toUInt8, 'x'.toUInt8] <+: bytes)) := by
  have read := string.holds
  by_cases allowed : base = 0 ∨ base = 16
  · simp only [strtolHex, allowed, if_true, true_and]
    cases bytes with
    | nil =>
        simp only [loadByte_ok.mpr read.1, ok_bind]
        rfl
    | cons first bytes =>
        by_cases zero : first = '0'.toUInt8
        · subst zero
          have tail := string.tail.holds
          cases bytes with
          | nil =>
              simp only [loadByte_ok.mpr read.1, ok_bind, if_true, string.next,
                loadByte_ok.mpr tail.1]
              rfl
          | cons second bytes =>
              simp only [loadByte_ok.mpr read.1, ok_bind, if_true, string.next,
                loadByte_ok.mpr tail.1, List.cons_prefix_cons, List.nil_prefix, and_true, true_and]
              rw [Bool.beq_eq_decide_eq]
              simp only [eq_comm]
        · have noPrefix : ¬ ['0'.toUInt8, 'x'.toUInt8] <+: first :: bytes := fun isPrefix =>
            zero (List.cons_prefix_cons.mp isPrefix).1.symm
          simp only [loadByte_ok.mpr read.1, ok_bind, if_neg zero, noPrefix, decide_false]
  · simp only [strtolHex, allowed, if_false, false_and, decide_false]

theorem base_ok (string : StringAt memory.image s bytes) (base : Nat) :
    ∃ lead radix rest, bytes = lead ++ rest ∧ Radix base lead radix ∧
      lead ≠ ['0'.toUInt8, 'X'.toUInt8] ∧
      (base = 0 ∨ base = 16 → lead.length < 2 → ¬ ['0'.toUInt8, 'x'.toUInt8] <+: bytes) ∧
      (base = 0 → lead = [] → rest.head? ≠ some '0'.toUInt8) ∧
      StringAt memory.image (s + lead.length) rest ∧
      strtolBase memory s base = .ok (s + lead.length, radix) := by
  by_cases isHex : (base = 0 ∨ base = 16) ∧ ['0'.toUInt8, 'x'.toUInt8] <+: bytes
  · have found := hex_ok string base
    rw [decide_eq_true isHex] at found
    obtain ⟨allowed, rest, rfl⟩ := isHex
    have tail := string.tail.tail
    have address : uint64 (s + 2) = s + 2 := string.tail.next
    refine ⟨_, 16, rest, rfl, .hex allowed, by decide, fun _ short => absurd short (by decide),
      fun _ isNil => absurd isNil (by simp), tail, ?_⟩
    simp only [strtolBase, found, ok_bind, if_true, address]
    rfl
  · have noHex : base = 0 ∨ base = 16 → ¬ ['0'.toUInt8, 'x'.toUInt8] <+: bytes :=
      fun allowed isPrefix => isHex ⟨allowed, isPrefix⟩
    have found := hex_ok string base
    rw [decide_eq_false isHex] at found
    by_cases zero : base = 0
    · subst zero
      cases bytes with
      | nil =>
          refine ⟨[], 10, [], rfl, .decimal, by decide, fun _ _ => by simp, by simp, string, ?_⟩
          simp only [strtolBase, found, ok_bind, if_true, Bool.false_eq_true, if_false,
            loadByte_ok.mpr string.holds.1]
          rfl
      | cons first bytes =>
          have read := loadByte_ok.mpr string.holds.1
          by_cases octal : first = '0'.toUInt8
          · subst octal
            refine ⟨_, 8, bytes, rfl, .octal, by decide, fun allowed _ => noHex allowed,
              fun _ isNil => absurd isNil (by simp), string.tail, ?_⟩
            simp only [strtolBase, found, ok_bind, if_true, Bool.false_eq_true, if_false, read,
              string.next]
            rfl
          · refine ⟨[], 10, first :: bytes, rfl, .decimal, by decide, fun allowed _ => noHex allowed,
              fun _ _ same => octal (Option.some.inj same), string, ?_⟩
            simp only [strtolBase, found, ok_bind, if_true, Bool.false_eq_true, if_false, read,
              if_neg octal]
            rfl
    · refine ⟨[], base, bytes, rfl, .given zero, by decide, fun allowed _ => noHex allowed,
        fun isZero => absurd isZero zero, string, ?_⟩
      simp only [strtolBase, found, ok_bind, Bool.false_eq_true, if_false, if_neg zero]
      rfl

theorem int64_step (v radix dig : Nat) :
    int64 (int64 (int64 v * radix) + dig) = int64 ((dig + radix * v : Nat) : Int) :=
  calc int64 (int64 (int64 v * radix) + dig)
      = int64 (int64 (v * radix) + dig) := by
        rw [int64, int64, int64, int64, Int.bmod_mul_bmod]
        rfl
    _ = int64 (v * radix + dig) := Int.bmod_add_bmod
    _ = int64 ((dig + radix * v : Nat) : Int) := by
        push_cast
        rw [Int.mul_comm, Int.add_comm]

theorem int64_neg (value : Int) : int64 (-int64 value) = int64 (-value) := by
  have shifted : int64 (0 - int64 value) = int64 (0 - value) := Int.sub_bmod_bmod
  simpa using shifted

theorem digits_returns (string : StringAt memory.image s bytes) (radix v : Nat) :
    ∃ digits rest, bytes = digits ++ rest ∧ (∀ c ∈ digits, IsDigit radix c) ∧
      (∀ c, rest.head? = some c → ¬ IsDigit radix c) ∧
      Returns (fun fuel => strtolDigits memory radix fuel s (int64 v))
        (s + digits.length,
          int64 ((digits.filterMap digitOf).foldl (fun v dig => dig + radix * v) v : Nat)) := by
  induction bytes generalizing s v with
  | nil =>
      refine ⟨[], [], rfl, by simp, by simp, .round (.of_constant fun fuel => ?_)⟩
      simp only [strtolDigits, loadByte_ok.mpr string.holds.1, ok_bind]
      rfl
  | cons first bytes ih =>
      have read := loadByte_ok.mpr string.holds.1
      by_cases isDigit : IsDigit radix first
      · obtain ⟨dig, value, below⟩ := isDigit
        obtain ⟨digits, rest, split, all, stops, returns⟩ := ih string.tail (dig + radix * v)
        have shift : s + (first :: digits).length = s + 1 + digits.length := by
          rw [List.length_cons]
          omega
        refine ⟨first :: digits, rest, by rw [split, List.cons_append],
          List.forall_mem_cons.mpr ⟨⟨dig, value, below⟩, all⟩, stops, .round ?_⟩
        simp only [strtolDigits, read, ok_bind, value, ge_iff_le, if_neg (Nat.not_le.mpr below),
          string.next, int64_step, shift, List.filterMap_cons_some value, List.foldl_cons]
        exact returns
      · refine ⟨[], first :: bytes, rfl, by simp, fun c head => ?_, .round (.of_constant fun fuel => ?_)⟩
        · cases head
          exact isDigit
        · simp only [strtolDigits, read, ok_bind]
          cases value : digitOf first with
          | none => rfl
          | some dig =>
              have large : dig ≥ radix := Nat.le_of_not_lt fun below => isDigit ⟨dig, value, below⟩
              simp only [if_pos large]
              rfl

theorem valueOf_eq (radix : Nat) (digits : List UInt8) :
    valueOf radix digits = (digits.filterMap digitOf).foldl (fun v dig => dig + radix * v) 0 := by
  rw [valueOf, Nat.ofDigits_eq_foldr, List.foldr_reverse]
  rfl

theorem strtol_returns (string : StringAt memory.image s bytes) (base : Nat) :
    ∃ blanks sign lead digits rest negative radix,
      bytes = blanks ++ (sign ++ (lead ++ (digits ++ rest))) ∧
      Scanned base blanks sign lead digits rest negative radix ∧
      lead ≠ ['0'.toUInt8, 'X'.toUInt8] ∧
      ∀ endptr, Returns (strtol memory s endptr base)
        (int64 (if negative then -(valueOf radix digits) else valueOf radix digits),
          if endptr = 0 then none
          else some (endptr, s + (blanks ++ sign ++ lead ++ digits).length)) := by
  obtain ⟨blanks, behind, rfl, blank, blanksEnd, string, skipped⟩ := blanks_returns string
  obtain ⟨sign, negative, behind, rfl, isSign, signEnd, string, signed⟩ := sign_ok string
  obtain ⟨lead, radix, behind, rfl, isRadix, notUpper, noHex, leading, string, based⟩ :=
    base_ok string base
  obtain ⟨digits, rest, rfl, isDigit, digitsEnd, returns⟩ := digits_returns string radix 0
  refine ⟨blanks, sign, lead, digits, rest, negative, radix, rfl,
    ⟨⟨blank, isSign, isRadix, isDigit, fun zero isNil head => ?_⟩, blanksEnd, signEnd, noHex,
      digitsEnd⟩, notUpper, fun endptr => ?_⟩
  · refine leading zero isNil ?_
    rw [List.head?_append, head]
    rfl
  · have whole : s + (blanks ++ sign ++ lead ++ digits).length =
        s + blanks.length + sign.length + lead.length + digits.length := by
      simp only [List.length_append]
      omega
    have negated : (if negative then int64 (-int64 (valueOf radix digits)) else
        int64 (valueOf radix digits)) =
          int64 (if negative then -(valueOf radix digits) else valueOf radix digits) := by
      cases negative with
      | true => simp only [if_true, int64_neg]
      | false => simp only [Bool.false_eq_true, if_false]
    have stored (address : Nat) : (if endptr ≠ 0 then some (endptr, address) else none) =
        if endptr = 0 then none else some (endptr, address) := by
      rw [ite_not]
    rw [← valueOf_eq] at returns
    rw [whole]
    unfold strtol
    refine skipped.bind ?_
    simp only [signed, based, ok_bind]
    refine returns.bind (.of_constant fun fuel => ?_)
    simp only [negated, stored]

theorem not_upper_of_parses (string : StringAt memory.image s bytes)
    (parses : Parses memory s base bytes) : ¬ UpperHex base bytes := by
  intro upper
  obtain ⟨blanks, sign, lead, digits, rest, negative, radix, rfl, scanned, notUpper, returns⟩ :=
    strtol_returns string base
  obtain ⟨text, _, _, _, longest, claimed⟩ := parses
  obtain ⟨blanks', sign', negative', parts, isPrefix, shorter⟩ := scanned.upper_longer notUpper upper
  have bound := longest.longest _ _ _ _ _ _ parts isPrefix
  have same := (claimed 1).unique (returns 1)
  simp only [Nat.one_ne_zero, if_false, Prod.mk.injEq, Option.some.injEq, true_and] at same
  omega

theorem parses_of_not_upper (string : StringAt memory.image s bytes)
    (noUpper : ¬ UpperHex base bytes) : Parses memory s base bytes := by
  obtain ⟨blanks, sign, lead, digits, rest, negative, radix, rfl, scanned, notUpper, returns⟩ :=
    strtol_returns string base
  refine ⟨_, negative, radix, digits, scanned.longest fun allowed isPrefix => noUpper ⟨allowed,
    blanks, sign, negative, scanned.blank, scanned.isSign, ?_⟩, returns⟩
  rw [List.append_assoc]
  exact (List.prefix_append_right_inj _).mpr ((List.prefix_append_right_inj _).mpr isPrefix)

/-- `strtol` parses the documented numbers except for those with an upper-case prefix. -/
theorem strtol_parses_iff (string : StringAt memory.image s bytes) (base : Nat) :
    Parses memory s base bytes ↔ ¬ UpperHex base bytes :=
  ⟨not_upper_of_parses string, parses_of_not_upper string⟩

/-- `"-0x1F"` in base 16. -/
theorem strtol_parses_lower :
    Parses (stringMemory (bytesOf "-0x1F") (by decide)) stringAddress 16 (bytesOf "-0x1F") := by
  refine (strtol_parses_iff (stringMemory_string _ _ (by decide)) 16).mpr fun upper => ?_
  obtain ⟨_, blanks, sign, negative, blank, isSign, isPrefix⟩ := upper
  cases blanks with
  | nil => cases isSign <;> exact absurd isPrefix (by decide)
  | cons first blanks =>
      have isBlank := blank first (by simp)
      rw [List.append_assoc, List.cons_append] at isPrefix
      rw [(List.cons_prefix_cons.mp isPrefix).1] at isBlank
      exact absurd isBlank (by decide)

/-- `"0X1F"` in base 16. -/
theorem strtol_upper_fails :
    ¬ Parses (stringMemory (bytesOf "0X1F") (by decide)) stringAddress 16 (bytesOf "0X1F") := by
  intro parses
  exact not_upper_of_parses (stringMemory_string _ _ (by decide)) parses
    ⟨.inr rfl, [], [], false, by simp, .none, by decide⟩

end Ucore.Libs.Strtol
