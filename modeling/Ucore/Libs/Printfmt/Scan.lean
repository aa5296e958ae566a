import Ucore.Libs.Printfmt

namespace Ucore.Libs.Printfmt

open Ucore.Data Ucore.Mm

/-! How the format and the escapes in it are read. -/

variable {memory : KernelMemory} {image : Image} {object text : Object} {bytes spec tail digits : List UInt8}
  {offset fmt : Nat} {fault : String} {ch : UInt8} {precision : Int}

theorem view_le (le : image.Le memory.image) : (object.view image).Le (object.view memory.image) := by
  cases object with
  | memory base size =>
      intro offset byte read
      simp only [Object.view] at read ⊢
      split at read
      · rename_i inside
        rw [if_pos inside]
        exact le _ _ read
      · cases read
  | constant text => exact fun _ _ read => read

theorem load_ok (read : object.view memory.image offset = some ch) :
    load memory object offset fault = .ok ch := by
  rw [load, read]

theorem load_view (le : image.Le memory.image) (read : object.view image offset = some ch) :
    load memory object offset fault = .ok ch :=
  load_ok (view_le le _ _ read)

theorem constant_string (noZero : 0 ∉ bytes) : StringAt ((Object.constant bytes).view image) 0 bytes :=
  ⟨Image.ofBytes_holds _ _, noZero⟩

theorem memory_string {base size : Nat} (string : StringAt image base bytes)
    (fits : bytes.length < size) : StringAt ((Object.memory base size).view image) 0 bytes := by
  have inObject (offset : Nat) (bytes : List UInt8) (holds : image.Holds (base + offset) bytes)
      (fits : offset + bytes.length ≤ size) :
      ((Object.memory base size).view image).Holds offset bytes := by
    induction bytes generalizing offset with
    | nil => trivial
    | cons byte bytes ih =>
        rw [List.length_cons] at fits
        have inside : offset < size := by omega
        exact ⟨(if_pos inside).trans holds.1, ih (offset + 1) holds.2 (by omega)⟩
  refine ⟨inObject 0 _ string.holds ?_, string.noZero⟩
  rw [List.length_append, List.length_singleton]
  omega

theorem holds_of_view {base size : Nat} (holds : ((Object.memory base size).view image).Holds offset bytes) :
    image.Holds (base + offset) bytes := by
  induction bytes generalizing offset with
  | nil => trivial
  | cons byte bytes ih =>
      refine ⟨?_, ih holds.2⟩
      have read := holds.1
      simp only [Object.view] at read
      split at read
      · exact read
      · cases read

/-- The argument for the string of `stringMemory`. -/
def stringArg (bytes : List UInt8) : Arg := .word (UInt64.ofNat stringAddress) (bytes.length + 1)

theorem stringArg_string (bytes : List UInt8) (fits : bytes.length < 2 ^ 20) (noZero : 0 ∉ bytes) :
    StringAt ((Object.memory (UInt64.ofNat stringAddress).toNat (bytes.length + 1)).view
      (stringMemory bytes fits).image) 0 bytes :=
  memory_string (stringMemory_string bytes fits noZero) (Nat.lt_succ_self _)

/-- The characters that can stand between a `%` and its conversion. -/
def isSpec (ch : UInt8) : Bool :=
  ch = '-'.toUInt8 ∨ ch = '0'.toUInt8 ∨ ('1'.toUInt8 ≤ ch ∧ ch ≤ '9'.toUInt8) ∨ ch = '*'.toUInt8 ∨
    ch = '.'.toUInt8 ∨ ch = '#'.toUInt8 ∨ ch = 'l'.toUInt8

theorem isSpec_iff : isSpec ch = true ↔
    ch = '-'.toUInt8 ∨ ch = '0'.toUInt8 ∨ ('1'.toUInt8 ≤ ch ∧ ch ≤ '9'.toUInt8) ∨ ch = '*'.toUInt8 ∨
      ch = '.'.toUInt8 ∨ ch = '#'.toUInt8 ∨ ch = 'l'.toUInt8 :=
  decide_eq_true_iff

def isDigit (ch : UInt8) : Bool := '0'.toUInt8 ≤ ch ∧ ch ≤ '9'.toUInt8

def digitStep (precision : Int) (ch : UInt8) : Int :=
  wrap32 (wrap32 (precision * 10) + ch.toNat - '0'.toNat)

/-- An escape as far as it was read, with the number that is being read. -/
structure Scan where
  escape : Escape
  number : Option Int
  ap : VaList

namespace Scan

def start (ap : VaList) : Scan := ⟨{}, none, ap⟩

/-- A number ends where no further digit follows. -/
def finish (scan : Scan) : Escape :=
  match scan.number with
  | none => scan.escape
  | some precision => { scan.escape with precision }.processPrecision

/-- A digit that belongs to a number; a 0 does not begin one. -/
def inNumber (scan : Scan) (ch : UInt8) : Bool :=
  isDigit ch && (ch != '0'.toUInt8 || scan.number.isSome)

/-- The other characters, which end a number. -/
def flag (escape : Escape) (ap : VaList) (ch : UInt8) : Escape × VaList :=
  if ch = '-'.toUInt8 then ({ escape with padc := '-'.toUInt8 }, ap)
  else if ch = '0'.toUInt8 then ({ escape with padc := '0'.toUInt8 }, ap)
  else if ch = '*'.toUInt8 then ({ escape with precision := ap.head.int }.processPrecision, ap.tail)
  else if ch = '.'.toUInt8 then (if escape.width < 0 then { escape with width := 0 } else escape, ap)
  else if ch = '#'.toUInt8 then ({ escape with altflag := true }, ap)
  else ({ escape with lflag := escape.lflag + 1 }, ap)

def step (scan : Scan) (ch : UInt8) : Scan :=
  if scan.inNumber ch then
    { scan with number := some (digitStep (scan.number.getD 0) ch) }
  else
    let (escape, ap) := flag scan.finish scan.ap ch
    ⟨escape, none, ap⟩

end Scan

theorem reswitch_flag {escape : Escape} {ap : VaList} {fuel : Nat}
    (read : fetch memory text fmt = .ok ch) (spec : isSpec ch = true)
    (noNumber : ¬ ('1'.toUInt8 ≤ ch ∧ ch ≤ '9'.toUInt8)) :
    reswitch memory text (fuel + 1) fmt ap escape =
      reswitch memory text fuel (fmt + 1) (Scan.flag escape ap ch).2 (Scan.flag escape ap ch).1 := by
  rw [reswitch, read, ok_bind, Scan.flag]
  simp only
  by_cases minus : ch = '-'.toUInt8
  · rw [if_pos minus, if_pos minus]
  rw [if_neg minus, if_neg minus]
  by_cases zero : ch = '0'.toUInt8
  · rw [if_pos zero, if_pos zero]
  rw [if_neg zero, if_neg zero, if_neg noNumber]
  by_cases star : ch = '*'.toUInt8
  · rw [if_pos star, if_pos star]
  rw [if_neg star, if_neg star]
  by_cases dot : ch = '.'.toUInt8
  · rw [if_pos dot, if_pos dot]
  rw [if_neg dot, if_neg dot]
  by_cases alt : ch = '#'.toUInt8
  · rw [if_pos alt, if_pos alt]
  rw [if_neg alt, if_neg alt]
  have long : ch = 'l'.toUInt8 := by
    rcases isSpec_iff.mp spec with is | is | is | is | is | is | is
    · exact absurd is minus
    · exact absurd is zero
    · exact absurd is noNumber
    · exact absurd is star
    · exact absurd is dot
    · exact absurd is alt
    · exact is
  rw [if_pos long]

theorem reswitch_number {escape : Escape} {ap : VaList} {fuel : Nat}
    (read : fetch memory text fmt = .ok ch) (number : '1'.toUInt8 ≤ ch ∧ ch ≤ '9'.toUInt8) :
    reswitch memory text (fuel + 1) fmt ap escape =
      scanNumber memory text fuel (fmt + 1) ch 0 >>= fun found =>
        reswitch memory text fuel found.1 ap { escape with precision := found.2 }.processPrecision := by
  have minus : ch ≠ '-'.toUInt8 := by
    intro is
    subst is
    exact absurd number.1 (by decide)
  have zero : ch ≠ '0'.toUInt8 := by
    intro is
    subst is
    exact absurd number.1 (by decide)
  rw [reswitch, read, ok_bind]
  simp only [if_neg minus, if_neg zero, if_pos number]

theorem reswitch_stops {escape : Escape} {ap : VaList} {fuel : Nat}
    (read : fetch memory text fmt = .ok ch) (other : isSpec ch ≠ true) :
    reswitch memory text (fuel + 1) fmt ap escape = .ok (ch, fmt + 1, ap, escape) := by
  have others := isSpec_iff.not.mp other
  simp only [not_or] at others
  obtain ⟨minus, zero, number, star, dot, alt, long⟩ := others
  rw [reswitch, read, ok_bind]
  simp only [if_neg minus, if_neg zero, if_neg number, if_neg star, if_neg dot, if_neg alt,
    if_neg long]

theorem fetch_ok (le : image.Le memory.image) (string : StringAt (text.view image) fmt bytes) :
    fetch memory text fmt = .ok (bytes.headD 0) :=
  load_view le string.head

theorem isDigit_iff : isDigit ch = true ↔ ¬ (ch < '0'.toUInt8 ∨ ch > '9'.toUInt8) := by
  rw [isDigit, decide_eq_true_iff, not_or, UInt8.not_lt, gt_iff_lt, UInt8.not_lt]

theorem isDigit_cases (digit : isDigit ch = true) :
    ch = '0'.toUInt8 ∨ ('1'.toUInt8 ≤ ch ∧ ch ≤ '9'.toUInt8) := by
  rw [isDigit, decide_eq_true_iff] at digit
  by_cases zero : ch = '0'.toUInt8
  · exact .inl zero
  · refine .inr ⟨?_, digit.2⟩
    have low : 48 ≤ ch.toNat := UInt8.le_iff_toNat_le.mp digit.1
    have other : ch.toNat ≠ 48 := fun same => zero (UInt8.toNat_inj.mp same)
    have next : 49 ≤ ch.toNat := by omega
    exact UInt8.le_iff_toNat_le.mpr next

theorem isSpec_of_isDigit (digit : isDigit ch = true) : isSpec ch = true :=
  isSpec_iff.mpr ((isDigit_cases digit).elim (fun zero => .inr (.inl zero))
    fun positive => .inr (.inr (.inl positive)))

theorem isDigit_of_positive (positive : '1'.toUInt8 ≤ ch ∧ ch ≤ '9'.toUInt8) : isDigit ch = true :=
  decide_eq_true ⟨UInt8.le_trans (by decide) positive.1, positive.2⟩

theorem scanNumber_returns (le : image.Le memory.image)
    (string : StringAt (text.view image) fmt (digits ++ tail)) (all : ∀ ch ∈ digits, isDigit ch = true)
    (stops : isDigit (tail.headD 0) ≠ true) :
    Returns (fun fuel => scanNumber memory text fuel fmt ch precision)
      (fmt + digits.length, digits.foldl digitStep (digitStep precision ch)) := by
  induction digits generalizing fmt ch precision with
  | nil =>
      refine .round (.of_constant fun fuel => ?_)
      have outside := not_not.mp (isDigit_iff.not.mp stops)
      simp only [scanNumber, fetch_ok le string, ok_bind, List.nil_append, if_pos outside]
      rfl
  | cons digit digits ih =>
      have inside := isDigit_iff.mp (all digit (by simp))
      rw [List.length_cons, Nat.add_comm digits.length, ← Nat.add_assoc]
      refine .round ?_
      simp only [scanNumber, fetch_ok le string, ok_bind, List.cons_append, List.headD_cons,
        if_neg inside]
      exact ih string.tail fun ch member => all ch (List.mem_cons_of_mem _ member)

namespace Scan

variable {scan : Scan} {escape : Escape} {ap : VaList}

theorem step_digits {precision : Int} (all : ∀ ch ∈ digits, isDigit ch = true) :
    digits.foldl step ⟨escape, some precision, ap⟩ =
      ⟨escape, some (digits.foldl digitStep precision), ap⟩ := by
  induction digits generalizing precision with
  | nil => rfl
  | cons digit digits ih =>
      have more : (⟨escape, some precision, ap⟩ : Scan).inNumber digit = true := by
        simp [inNumber, all digit (by simp)]
      rw [List.foldl_cons, step, if_pos more]
      exact ih fun ch member => all ch (List.mem_cons_of_mem _ member)

theorem step_flag (other : scan.inNumber ch ≠ true) :
    scan.step ch = ⟨(flag scan.finish scan.ap ch).1, none, (flag scan.finish scan.ap ch).2⟩ := by
  rw [step, if_neg other]

theorem inNumber_isDigit (number : scan.inNumber ch = true) : isDigit ch = true :=
  ((Bool.and_eq_true _ _).mp number).1

/-- What follows a number does not see it any more. -/
theorem foldl_finish (scan : Scan) (stops : ∀ ch, spec.head? = some ch → isDigit ch ≠ true) :
    (spec.foldl step scan).ap = (spec.foldl step ⟨scan.finish, none, scan.ap⟩).ap ∧
      (spec.foldl step scan).finish = (spec.foldl step ⟨scan.finish, none, scan.ap⟩).finish := by
  cases spec with
  | nil => exact ⟨rfl, rfl⟩
  | cons ch spec =>
      have noDigit := stops ch rfl
      rw [List.foldl_cons, List.foldl_cons, step_flag fun number => noDigit (inNumber_isDigit number),
        step_flag fun number => noDigit (inNumber_isDigit number)]
      exact ⟨rfl, rfl⟩

theorem inNumber_none : (⟨escape, none, ap⟩ : Scan).inNumber ch = true ↔
    '1'.toUInt8 ≤ ch ∧ ch ≤ '9'.toUInt8 := by
  refine ⟨fun number => ?_, fun number => ?_⟩
  · simp only [inNumber, Option.isSome_none, Bool.or_false, Bool.and_eq_true, bne_iff_ne] at number
    exact (isDigit_cases number.1).resolve_left number.2
  · have other : ch ≠ '0'.toUInt8 := by
      intro zero
      subst zero
      exact absurd number.1 (by decide)
    simp [inNumber, isDigit_of_positive number, other]

end Scan

theorem split_run (kind : UInt8 → Bool) (bytes : List UInt8) :
    ∃ run rest, bytes = run ++ rest ∧ (∀ ch ∈ run, kind ch = true) ∧
      ∀ ch, rest.head? = some ch → kind ch ≠ true := by
  induction bytes with
  | nil => exact ⟨[], [], rfl, by simp, by simp⟩
  | cons first bytes ih =>
      by_cases same : kind first = true
      · obtain ⟨run, rest, split, all, stops⟩ := ih
        exact ⟨first :: run, rest, by rw [split]; rfl, List.forall_mem_cons.mpr ⟨same, all⟩, stops⟩
      · refine ⟨[], first :: bytes, rfl, by simp, fun ch head => ?_⟩
        cases head
        exact same

/-- `reswitch` reads the flags, widths and precisions and stops behind the next character. -/
theorem reswitch_returns {spec : List UInt8} {fmt : Nat} (escape : Escape) (ap : VaList)
    (le : image.Le memory.image) (string : StringAt (text.view image) fmt (spec ++ tail))
    (all : ∀ ch ∈ spec, isSpec ch = true) (stops : isSpec (tail.headD 0) ≠ true) :
    Returns (fun fuel => reswitch memory text fuel fmt ap escape)
      (tail.headD 0, fmt + spec.length + 1, (spec.foldl Scan.step ⟨escape, none, ap⟩).ap,
        (spec.foldl Scan.step ⟨escape, none, ap⟩).finish) := by
  match spec with
  | [] =>
      refine .round (.of_constant fun fuel => ?_)
      exact reswitch_stops (fetch_ok le string) stops
  | ch :: spec =>
      have isFlag := all ch (by simp)
      have others : ∀ ch ∈ spec, isSpec ch = true := fun ch member =>
        all ch (List.mem_cons_of_mem _ member)
      have read := fetch_ok le string
      rw [List.cons_append, List.headD_cons] at read
      by_cases number : '1'.toUInt8 ≤ ch ∧ ch ≤ '9'.toUInt8
      · -- a number takes all digits at once
        obtain ⟨digits, rest, split, digit, ends⟩ := split_run isDigit spec
        have onward : StringAt (text.view image) (fmt + 1) (digits ++ (rest ++ tail)) := by
          rw [← List.append_assoc, ← split]
          exact string.tail
        have other : isDigit ((rest ++ tail).headD 0) ≠ true := by
          cases rest with
          | nil => exact fun digit => stops (isSpec_of_isDigit digit)
          | cons first rest => exact ends first rfl
        have shorter : rest.length < (ch :: spec).length := by
          rw [split, List.length_cons, List.length_append]
          omega
        have next := reswitch_returns { escape with
          precision := digits.foldl digitStep (digitStep 0 ch) }.processPrecision ap le onward.skip
          (fun ch member => others ch (split ▸ List.mem_append_right _ member)) stops
        have begun : (⟨escape, none, ap⟩ : Scan).step ch = ⟨escape, some (digitStep 0 ch), ap⟩ := by
          rw [Scan.step, if_pos (Scan.inNumber_none.mpr number)]
          rfl
        have place : fmt + (ch :: spec).length + 1 = fmt + 1 + digits.length + rest.length + 1 := by
          rw [split, List.length_cons, List.length_append]
          omega
        obtain ⟨sameArguments, sameEscape⟩ :=
          Scan.foldl_finish ⟨escape, some (digits.foldl digitStep (digitStep 0 ch)), ap⟩ ends
        refine .round ?_
        rw [place, List.foldl_cons, begun, split, List.foldl_append, Scan.step_digits digit,
          sameArguments, sameEscape]
        simp only [reswitch_number read number]
        exact (scanNumber_returns le onward digit other).bind next
      · have rest := reswitch_returns (Scan.flag escape ap ch).1 (Scan.flag escape ap ch).2 le
          string.tail others stops
        have place : fmt + (ch :: spec).length + 1 = fmt + 1 + spec.length + 1 := by
          rw [List.length_cons]
          omega
        refine .round ?_
        simp only [reswitch_flag read isFlag number, place, List.foldl_cons,
          Scan.step_flag (Scan.inNumber_none.not.mpr number)]
        exact rest
termination_by spec.length

end Ucore.Libs.Printfmt
