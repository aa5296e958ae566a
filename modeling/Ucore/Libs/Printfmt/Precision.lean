import Ucore.Libs.Printfmt.Scanning

namespace Ucore.Libs.Printfmt

open Ucore.Data

/-! The precision that is written in an escape.

It is the last number behind the width or behind a `.`, whatever `vprintfmt` makes of it: right behind
the `.` a 0 is a digit, and a `.` alone stands for the precision 0.
-/

/-- The part of an escape that is being written. -/
inductive Part where
  | flags
  | width
  | behind
  | precision

structure Reading where
  part : Part := .flags
  precision : Option Nat := none
  ap : VaList

namespace Reading

def digit (reading : Reading) (value : Nat) : Reading :=
  match reading.part with
  | .flags => if value = 0 then reading else { reading with part := .width }
  | .width => reading
  | .behind =>
      if value = 0 then reading else { reading with part := .precision, precision := some value }
  | .precision => { reading with precision := reading.precision.map fun number => number * 10 + value }

/-- A precision that is negative is taken as none. -/
def star (reading : Reading) : Reading :=
  let value := reading.ap.head.int
  match reading.part with
  | .flags => ⟨.behind, none, reading.ap.tail⟩
  | _ => ⟨.behind, if 0 ≤ value then some value.toNat else none, reading.ap.tail⟩

/-- The other characters end a number. -/
def flag (reading : Reading) : Reading :=
  match reading.part with
  | .flags => reading
  | _ => { reading with part := .behind }

def step (reading : Reading) (ch : UInt8) : Reading :=
  if isDigit ch then reading.digit (ch.toNat - '0'.toNat)
  else if ch = '.'.toUInt8 then { reading with part := .precision, precision := some 0 }
  else if ch = '*'.toUInt8 then reading.star
  else reading.flag

end Reading

/-- The precision in these characters between a `%` and its conversion. -/
def writtenPrecision (spec : List UInt8) (ap : VaList) : Option Nat :=
  (spec.foldl Reading.step { ap }).precision

example (ap : VaList) : writtenPrecision (bytesOf "-5.07") ap = some 7 := rfl

/-- The value of `precision` is none, or at least as large as what is written. -/
def Covers (precision : Option Nat) (value : Int) : Prop :=
  ∀ written, precision = some written → written < 2 ^ 31 → value < 0 ∨ written ≤ value

/-- The reading of some characters, and what `vprintfmt` has made of them. -/
inductive Agrees : Reading → Scan → Prop where
  | flags (escape : Escape) (ap : VaList) : Agrees ⟨.flags, none, ap⟩ ⟨escape, none, ap⟩
  | width (escape : Escape) (value : Int) (ap : VaList) :
      Agrees ⟨.width, none, ap⟩ ⟨escape, some value, ap⟩
  | behind {precision : Option Nat} {escape : Escape} (ap : VaList)
      (covers : Covers precision escape.precision) :
      Agrees ⟨.behind, precision, ap⟩ ⟨escape, none, ap⟩
  | zeros (escape : Escape) (ap : VaList) : Agrees ⟨.precision, some 0, ap⟩ ⟨escape, none, ap⟩
  | digits (escape : Escape) (number : Nat) (ap : VaList) :
      Agrees ⟨.precision, some number, ap⟩ ⟨escape, some (wrap32 number), ap⟩

variable {spec : List UInt8} {ap middle left : VaList} {reading : Reading} {scan : Scan} {escape : Escape}
  {width precision : Option Nat} {value : Int} {ch : UInt8} {digit : Nat}

theorem covers_none (value : Int) : Covers none value := by
  intro written isWritten
  cases isWritten

theorem covers_zero (value : Int) : Covers (some 0) value := by
  intro written isWritten _
  cases isWritten
  exact Int.lt_or_le value 0

theorem covers_negative (negative : value < 0) : Covers precision value :=
  fun _ _ _ => .inl negative

theorem covers_wrap32 (number : Nat) : Covers (some number) (wrap32 number) := by
  intro written isWritten small
  cases isWritten
  rw [wrap32_of_fits (by omega) (by omega)]
  exact .inr le_rfl

theorem covers_int (value : Int) : Covers (if 0 ≤ value then some value.toNat else none) value := by
  split
  · intro written isWritten _
    cases isWritten
    omega
  · exact covers_none value

theorem Covers.processPrecision (covers : Covers precision value) (escape : Escape) :
    Covers precision { escape with precision := value }.processPrecision.precision := by
  rw [Escape.processPrecision]
  split
  · exact covers_negative (show (-1 : Int) < 0 by decide)
  · exact covers

theorem flag_precision (noStar : ch ≠ '*'.toUInt8) (escape : Escape) (ap : VaList) :
    (Scan.flag escape ap ch).1.precision = escape.precision := by
  rw [Scan.flag]
  split
  · rfl
  split
  · rfl
  split
  · split <;> rfl
  split
  · rfl
  · rfl

/-! A digit. -/

theorem digit_of_isDigit (isDigit : isDigit ch = true) :
    ch.toNat - '0'.toNat < 10 ∧ ch = digitByte (ch.toNat - '0'.toNat) := by
  obtain ⟨low, high⟩ := of_decide_eq_true isDigit
  have low : 48 ≤ ch.toNat := UInt8.le_iff_toNat_le.mp low
  have high : ch.toNat ≤ 57 := UInt8.le_iff_toNat_le.mp high
  have zero : '0'.toNat = 48 := rfl
  have small : ch.toNat - '0'.toNat < 10 := by omega
  refine ⟨small, UInt8.toNat_inj.mp ?_⟩
  rw [digitByte_toNat _ small]
  omega

theorem step_begins (small : digit < 10) (nonzero : digit ≠ 0) (escape : Escape) (ap : VaList) :
    (⟨escape, none, ap⟩ : Scan).step (digitByte digit) = ⟨escape, some (wrap32 digit), ap⟩ := by
  have positive : ∀ digit < 10, digit ≠ 0 →
      '1'.toUInt8 ≤ digitByte digit ∧ digitByte digit ≤ '9'.toUInt8 := by decide
  have value := digitStep_wrap32 small 0
  rw [Nat.zero_mul, Nat.zero_add] at value
  rw [Scan.step, if_pos (Scan.inNumber_none.mpr (positive digit small nonzero)), ← value]
  rfl

theorem step_more (small : digit < 10) (escape : Escape) (value : Int) (ap : VaList) :
    (⟨escape, some value, ap⟩ : Scan).step (digitByte digit) =
      ⟨escape, some (digitStep value (digitByte digit)), ap⟩ := by
  have more : (⟨escape, some value, ap⟩ : Scan).inNumber (digitByte digit) = true := by
    simp [Scan.inNumber, digitByte_isDigit digit small]
  rw [Scan.step, if_pos more]
  rfl

namespace Agrees

theorem on_digit (agrees : Agrees reading scan) (small : digit < 10) :
    Agrees (reading.digit digit) (scan.step (digitByte digit)) := by
  cases agrees with
  | flags escape ap =>
      by_cases zero : digit = 0
      · subst zero
        exact .flags _ ap
      · rw [step_begins small zero, Reading.digit, if_neg zero]
        exact .width escape _ ap
  | width escape value ap =>
      rw [step_more small]
      exact .width escape _ ap
  | behind ap covers =>
      by_cases zero : digit = 0
      · subst zero
        exact .behind ap covers
      · rw [step_begins small zero]
        simp only [Reading.digit, if_neg zero]
        exact .digits _ digit ap
  | zeros escape ap =>
      by_cases zero : digit = 0
      · subst zero
        exact .zeros _ ap
      · rw [step_begins small zero, Reading.digit, Option.map_some, Nat.zero_mul, Nat.zero_add]
        exact .digits escape digit ap
  | digits escape number ap =>
      rw [step_more small, digitStep_wrap32 small]
      exact .digits escape _ ap

/-! The other characters. -/

theorem covers (agrees : Agrees reading scan) : Covers reading.precision scan.finish.precision := by
  cases agrees with
  | flags => exact covers_none _
  | width => exact covers_none _
  | behind _ covers => exact covers
  | zeros => exact covers_zero _
  | digits escape number => exact (covers_wrap32 number).processPrecision escape

theorem on_dot (agrees : Agrees reading scan) (escape : Escape) :
    Agrees { reading with part := .precision, precision := some 0 } ⟨escape, none, scan.ap⟩ := by
  cases agrees <;> exact .zeros escape _

theorem on_star (agrees : Agrees reading scan) :
    Agrees reading.star
      ⟨{ scan.finish with precision := scan.ap.head.int }.processPrecision, none, scan.ap.tail⟩ := by
  have covers := (covers_int scan.ap.head.int).processPrecision scan.finish
  cases agrees with
  | flags => exact .behind _ (covers_none _)
  | width => exact .behind _ covers
  | behind => exact .behind _ covers
  | zeros => exact .behind _ covers
  | digits => exact .behind _ covers

theorem on_flag (agrees : Agrees reading scan) {escape : Escape}
    (same : escape.precision = scan.finish.precision) :
    Agrees reading.flag ⟨escape, none, scan.ap⟩ := by
  have covers := agrees.covers
  rw [← same] at covers
  cases agrees with
  | flags => exact .flags escape _
  | width => exact .behind _ covers
  | behind => exact .behind _ covers
  | zeros => exact .behind _ covers
  | digits => exact .behind _ covers

theorem step (agrees : Agrees reading scan) (ch : UInt8) : Agrees (reading.step ch) (scan.step ch) := by
  by_cases isDigit : isDigit ch = true
  · obtain ⟨small, isByte⟩ := digit_of_isDigit isDigit
    have next := agrees.on_digit small
    rw [← isByte] at next
    rwa [Reading.step, if_pos isDigit]
  · have noNumber : scan.inNumber ch ≠ true := fun number => isDigit (Scan.inNumber_isDigit number)
    rw [Reading.step, if_neg isDigit, Scan.step_flag noNumber]
    by_cases star : ch = '*'.toUInt8
    · subst star
      exact agrees.on_star
    · have unchanged : (Scan.flag scan.finish scan.ap ch).2 = scan.ap := by
        rw [flag_arguments, if_neg star]
      rw [unchanged, if_neg star]
      split
      · exact agrees.on_dot _
      · exact agrees.on_flag (flag_precision star _ _)

end Agrees

/-- What is written is a bound on what is read, unless nothing bounds that. -/
theorem writtenPrecision_covers (spec : List UInt8) (ap : VaList) :
    Covers (writtenPrecision spec ap) (spec.foldl Scan.step (.start ap)).finish.precision := by
  have run (reading : Reading) (scan : Scan) (agrees : Agrees reading scan) :
      Agrees (spec.foldl Reading.step reading) (spec.foldl Scan.step scan) := by
    induction spec generalizing reading scan with
    | nil => exact agrees
    | cons ch spec ih => exact ih _ _ (agrees.step ch)
  exact (run { ap } (.start ap) (.flags {} ap)).covers

/-! The usual order of flag, width and precision. -/

theorem reading_digit {digit : Nat} (small : digit < 10) (reading : Reading) :
    reading.step (digitByte digit) = reading.digit digit := by
  have value : (digitByte digit).toNat - '0'.toNat = digit := by
    rw [digitByte_toNat digit small]
    exact Nat.add_sub_cancel_left 48 digit
  rw [Reading.step, if_pos (digitByte_isDigit digit small), value]

theorem reading_width {digits : List Nat} (small : ∀ digit ∈ digits, digit < 10)
    (inWidth : reading.part = .flags ∨ reading.part = .width) (absent : reading.precision = none) :
    ((digits.map digitByte).foldl Reading.step reading).precision = none ∧
      ((digits.map digitByte).foldl Reading.step reading).ap = reading.ap := by
  induction digits generalizing reading with
  | nil => exact ⟨absent, rfl⟩
  | cons digit digits ih =>
      rw [List.map_cons, List.foldl_cons, reading_digit (small digit (by simp))]
      have others := fun digit member => small digit (List.mem_cons_of_mem _ member)
      rcases inWidth with isFlags | isWidth
      · by_cases zero : digit = 0
        · simp only [Reading.digit, isFlags, if_pos zero]
          exact ih others (.inl isFlags) absent
        · simp only [Reading.digit, isFlags, if_neg zero]
          exact ih others (.inr rfl) absent
      · simp only [Reading.digit, isWidth]
        exact ih others (.inr isWidth) absent

theorem reading_precision {digits : List Nat} (small : ∀ digit ∈ digits, digit < 10) (number : Nat) :
    (digits.map digitByte).foldl Reading.step ⟨.precision, some number, ap⟩ =
      ⟨.precision, some (digits.foldl (fun value digit => value * 10 + digit) number), ap⟩ := by
  induction digits generalizing number with
  | nil => rfl
  | cons digit digits ih =>
      rw [List.map_cons, List.foldl_cons, reading_digit (small digit (by simp))]
      exact ih (fun digit member => small digit (List.mem_cons_of_mem _ member)) _

theorem reading_given {text : List UInt8} (given : Given ap text middle width) :
    (text.foldl Reading.step { ap }).precision = none ∧
      (text.foldl Reading.step { ap }).ap = middle := by
  cases given with
  | absent => exact ⟨rfl, rfl⟩
  | digits number => exact reading_width (fun digit => numeral_lt (by decide)) (.inl rfl) rfl
  | star number isInt => exact ⟨rfl, rfl⟩

/-- A precision in its usual place is read as it is written. -/
theorem writtenPrecision_precise (flag : Flag) {widthText precisionText : List UInt8}
    (given : Given ap widthText middle width) (precise : Precise middle precisionText left precision) :
    writtenPrecision (flag.text ++ widthText ++ precisionText) ap = precision := by
  have isFlag : flag.text.foldl Reading.step { ap } = { ap } := by cases flag <;> rfl
  obtain ⟨absent, arguments⟩ := reading_given given
  rw [writtenPrecision, List.foldl_append, List.foldl_append, isFlag]
  generalize widthText.foldl Reading.step { ap } = reading at absent arguments
  subst arguments
  cases precise with
  | absent => exact absent
  | digits zeros number isInt =>
      have isZero : List.replicate zeros '0'.toUInt8 = (List.replicate zeros 0).map digitByte := by
        rw [List.map_replicate]
        rfl
      have noValue (zeros : Nat) :
          (List.replicate zeros 0).foldl (fun value digit => value * 10 + digit) 0 = 0 := by
        induction zeros with
        | zero => rfl
        | succ zeros ih => exact ih
      have dot : reading.step '.'.toUInt8 = ⟨.precision, some 0, reading.ap⟩ := rfl
      rw [List.foldl_cons, dot, isZero, numeralText, ← List.map_append, reading_precision, List.foldl_append,
        noValue, numeral_foldl (by decide)]
      intro digit member
      rcases List.mem_append.mp member with isZero | isDigit
      · rw [List.eq_of_mem_replicate isZero]
        decide
      · exact numeral_lt (by decide) isDigit
  | star number isInt =>
      have value : ['.'.toUInt8, '*'.toUInt8].foldl Reading.step reading =
          ⟨.behind, if 0 ≤ reading.ap.head.int then some reading.ap.head.int.toNat else none,
            reading.ap.tail⟩ := rfl
      rw [value, isInt, if_pos (Int.natCast_nonneg number), Int.toNat_natCast]

end Ucore.Libs.Printfmt
