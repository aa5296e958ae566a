import Ucore.Data.Numeral
import Ucore.Libs.Printfmt.Output
import Ucore.Libs.Printfmt.Scan
import Mathlib.Data.Stream.Init

namespace Ucore.Libs.Printfmt

open Ucore.Data Ucore.Mm

/-! What an escape emits, and how its width and its precision are written. -/

variable {σ : Type} {sink : Sink σ} {image : Image} {invariant : σ → Prop} {out : Output σ}
  {format : Object} {fmt : Nat} {spec tail : List UInt8} {ap left : VaList}
  {number : Option Nat}

/-- Behind the `%` at this place `vprintfmt` emits the text, and goes on with these arguments. -/
def Emits (sink : Sink σ) (format : Object) (fmt : Nat) (ap : VaList) (out : Output σ)
    (text : List UInt8) (after : Nat) (left : VaList) : Prop :=
  ∃ next, next.emitted = out.emitted ++ chars text ∧
    Returns (fun fuel => processEscape sink format (printfmt sink fuel) fuel fmt ap out)
      (after, left, next)

theorem processEscape_ends {escape : Escape} {result : Except Stop (Nat × VaList × Output σ)}
    (keeps : Keeps sink image invariant) (before : invariant out.state)
    (string : StringAt (format.view image) fmt (spec ++ tail)) (all : ∀ ch ∈ spec, isSpec ch = true)
    (stops : isSpec (tail.headD 0) ≠ true) (arguments : (spec.foldl Scan.step (.start ap)).ap = left)
    (finish : (spec.foldl Scan.step (.start ap)).finish = escape)
    (converts : Ends (fun fuel => convert sink format (printfmt sink fuel) fuel (tail.headD 0)
      (fmt + spec.length + 1) left escape out) result) :
    Ends (fun fuel => processEscape sink format (printfmt sink fuel) fuel fmt ap out) result := by
  have scanned := reswitch_returns {} ap (keeps.reads _ before) string all stops
  rw [← Scan.start, arguments, finish] at scanned
  exact Ends.bind scanned converts

theorem chars_inj {first second : List UInt8} : chars first = chars second ↔ first = second :=
  (List.map_injective_iff.mpr fun _ _ same => UInt8.toNat_inj.mp (Int.ofNat.inj same)).eq_iff

theorem emits_iff {next : Output σ} {text other : List UInt8} {after : Nat}
    (returns : Returns (fun fuel => processEscape sink format (printfmt sink fuel) fuel fmt ap out)
      (after, left, next))
    (emitted : Extends invariant out (chars text) next) :
    Emits sink format fmt ap out other after left ↔ text = other := by
  refine ⟨fun emits => ?_, fun same => ⟨next, by rw [emitted.emitted, same], returns⟩⟩
  obtain ⟨next', emitted', returns'⟩ := emits
  have same := returns'.unique returns
  cases same
  rw [emitted.emitted] at emitted'
  exact chars_inj.mp (List.append_cancel_left emitted')

/-- `"0123456789abcdef"[digit]`. -/
def digitByte (digit : Nat) : UInt8 := (bytesOf "0123456789abcdef").getD digit 0

def numeralText (base number : Nat) : List UInt8 := (numeral base number).map digitByte

/-- How a number is written in an escape, the arguments that are left then, and the number. -/
inductive Given (ap : VaList) : (text : List UInt8) → (left : VaList) → (number : Option Nat) → Prop
  where
  | absent : Given ap [] ap none
  | digits (number : Nat) : Given ap (numeralText 10 number) ap (some number)
  | star (number : Nat) (isInt : ap.head.int = number) :
      Given ap ['*'.toUInt8] ap.tail (some number)

inductive Flag where
  | none
  | minus
  | zero
deriving DecidableEq

def Flag.text : Flag → List UInt8
  | none => []
  | minus => ['-'.toUInt8]
  | zero => ['0'.toUInt8]

/-- What `vprintfmt` pads with on the left. -/
def Flag.padc : Flag → UInt8
  | none => ' '.toUInt8
  | minus => '-'.toUInt8
  | zero => '0'.toUInt8

theorem numeralText_of_lt {base number : Nat} (small : number < base) :
    numeralText base number = [digitByte number] := by
  rw [numeralText, numeral_of_lt small, List.map_singleton]

theorem numeralText_of_le {base number : Nat} (isBase : 1 < base) (large : base ≤ number) :
    numeralText base number =
      numeralText base (number / base) ++ [digitByte (number % base)] := by
  rw [numeralText, numeral_of_le isBase large, List.map_append, List.map_singleton, numeralText]

theorem digitByte_toNat : ∀ digit < 10, (digitByte digit).toNat = 48 + digit := by decide

theorem digitByte_isDigit : ∀ digit < 10, isDigit (digitByte digit) = true := by decide

theorem digitStep_wrap32 {digit : Nat} (small : digit < 10) (number : Nat) :
    digitStep (wrap32 number) (digitByte digit) = wrap32 ((number * 10 + digit : Nat) : Int) := by
  have ten : wrap32 (wrap32 number * 10) = wrap32 (number * 10) := Int.bmod_mul_bmod
  have zero : ('0'.toNat : Int) = 48 := rfl
  have shift : (number * 10 : Int) + ((48 + digit : Nat) - 48) = (number * 10 + digit : Nat) := by
    omega
  rw [digitStep, digitByte_toNat digit small, ten, zero, add_sub_assoc, wrap32_wrap32_add, shift]

theorem digitStep_foldl {digits : List Nat} (small : ∀ digit ∈ digits, digit < 10) (number : Nat) :
    (digits.map digitByte).foldl digitStep (wrap32 number) =
      wrap32 ((digits.foldl (fun value digit => value * 10 + digit) number : Nat) : Int) := by
  induction digits generalizing number with
  | nil => rw [List.map_nil, List.foldl_nil, List.foldl_nil]
  | cons digit digits ih =>
      rw [List.map_cons, List.foldl_cons, List.foldl_cons, digitStep_wrap32 (small digit (by simp))]
      exact ih (fun digit member => small digit (List.mem_cons_of_mem _ member)) _

theorem scan_numeral {number : Nat} (positive : 0 < number) (escape : Escape) (ap : VaList) :
    (numeralText 10 number).foldl Scan.step ⟨escape, none, ap⟩ = ⟨escape, some (wrap32 number), ap⟩ := by
  obtain ⟨first, rest, split, nonzero⟩ := numeral_head (by decide : 1 < 10) positive
  have small : ∀ digit ∈ first :: rest, digit < 10 := by
    rw [← split]
    exact fun digit => numeral_lt (by decide)
  have read := numeral_foldl (by decide : 1 < 10) number
  have value := digitStep_foldl small 0
  rw [← split, read, split, List.map_cons, List.foldl_cons] at value
  have begins : (⟨escape, none, ap⟩ : Scan).inNumber (digitByte first) = true := by
    refine Scan.inNumber_none.mpr ?_
    refine (isDigit_cases (digitByte_isDigit first (small first (by simp)))).resolve_left fun zero => ?_
    have same := congrArg UInt8.toNat zero
    rw [digitByte_toNat first (small first (by simp))] at same
    change 48 + first = 48 at same
    omega
  rw [numeralText, split, List.map_cons, List.foldl_cons, Scan.step, if_pos begins]
  refine (Scan.step_digits fun ch member => ?_).trans ?_
  · obtain ⟨digit, isMember, rfl⟩ := List.mem_map.mp member
    exact digitByte_isDigit digit (small digit (List.mem_cons_of_mem _ isMember))
  · exact congrArg (fun number => (⟨escape, some number, ap⟩ : Scan)) value

theorem scan_flag (flag : Flag) (ap : VaList) :
    flag.text.foldl Scan.step (.start ap) = ⟨{ padc := flag.padc }, none, ap⟩ := by
  cases flag with
  | none => rfl
  | minus => rfl
  | zero => rfl

theorem processPrecision_width (padc : UInt8) (width : Int) :
    ({ padc, precision := width } : Escape).processPrecision = { padc, width } :=
  if_pos (by decide : (-1 : Int) < 0)

theorem wrap32_int (arg : Arg) : wrap32 arg.int = arg.int := by
  rw [Arg.int, int32_eq_wrap32, wrap32_wrap32]

/-- What a width leaves behind; a width 0 that is written out is a flag. -/
theorem scan_width {text : List UInt8} (given : Given ap text left number) (padc : UInt8) :
    ∃ padc' width, (text.foldl Scan.step ⟨{ padc }, none, ap⟩).ap = left ∧
      (text.foldl Scan.step ⟨{ padc }, none, ap⟩).finish = { padc := padc', width } ∧
      ((padc' = padc ∧ width = wrap32 (number.getD 0)) ∨ (number.getD 0 = 0 ∧ width = -1)) := by
  cases given with
  | absent => exact ⟨padc, -1, rfl, rfl, .inr ⟨rfl, rfl⟩⟩
  | digits number =>
      rcases Nat.eq_zero_or_pos number with zero | positive
      · subst zero
        exact ⟨'0'.toUInt8, -1, rfl, rfl, .inr ⟨rfl, rfl⟩⟩
      · rw [scan_numeral positive]
        exact ⟨padc, wrap32 number, rfl, processPrecision_width _ _, .inl ⟨rfl, by rw [Option.getD_some]⟩⟩
  | star number isInt =>
      refine ⟨padc, ap.head.int, rfl, processPrecision_width _ _, .inl ⟨rfl, ?_⟩⟩
      rw [Option.getD_some, ← isInt, wrap32_int]

theorem scan_long (scan : Scan) (count : Nat) :
    ((List.replicate count 'l'.toUInt8).foldl Scan.step scan).ap = scan.ap ∧
      ((List.replicate count 'l'.toUInt8).foldl Scan.step scan).finish =
        { scan.finish with lflag := scan.finish.lflag + count } := by
  induction count generalizing scan with
  | zero => exact ⟨rfl, rfl⟩
  | succ count ih =>
      have other : scan.inNumber 'l'.toUInt8 ≠ true := fun number =>
        absurd (Scan.inNumber_isDigit number) (by decide)
      have long : scan.step 'l'.toUInt8 =
          ⟨{ scan.finish with lflag := scan.finish.lflag + 1 }, none, scan.ap⟩ :=
        Scan.step_flag other
      obtain ⟨arguments, escape⟩ := ih (scan.step 'l'.toUInt8)
      rw [List.replicate_succ, List.foldl_cons, arguments, escape, long]
      refine ⟨rfl, ?_⟩
      simp only [Scan.finish, Nat.add_assoc, Nat.add_comm 1]

theorem flag_spec (flag : Flag) : ∀ ch ∈ flag.text, isSpec ch = true := by
  cases flag with
  | none => simp [Flag.text]
  | minus => exact List.forall_mem_singleton.mpr (by decide)
  | zero => exact List.forall_mem_singleton.mpr (by decide)

theorem given_spec {text : List UInt8} (given : Given ap text left number) :
    ∀ ch ∈ text, isSpec ch = true := by
  cases given with
  | absent => simp
  | digits number =>
      intro ch member
      obtain ⟨digit, isDigit, rfl⟩ := List.mem_map.mp member
      exact isSpec_of_isDigit (digitByte_isDigit digit (numeral_lt (by decide) isDigit))
  | star => exact List.forall_mem_singleton.mpr (by decide)

/-- The text in a field of at least this width. -/
def field (flag : Flag) (width : Nat) (sign digits : List UInt8) : List UInt8 :=
  let room := width - (sign ++ digits).length
  match flag with
  | .none => List.replicate room ' '.toUInt8 ++ (sign ++ digits)
  | .minus => (sign ++ digits) ++ List.replicate room ' '.toUInt8
  | .zero => sign ++ (List.replicate room '0'.toUInt8 ++ digits)

theorem field_length (flag : Flag) (width : Nat) (sign digits : List UInt8) :
    (field flag width sign digits).length = max width (sign ++ digits).length := by
  cases flag <;> simp only [field, List.length_append, List.length_replicate] <;> omega

theorem field_full {flag : Flag} {width : Nat} {sign digits : List UInt8}
    (full : width ≤ (sign ++ digits).length) : field flag width sign digits = sign ++ digits := by
  have room : width - (sign ++ digits).length = 0 := Nat.sub_eq_zero_of_le full
  cases flag <;> simp only [field, room, List.replicate_zero, List.nil_append, List.append_nil]

end Ucore.Libs.Printfmt
