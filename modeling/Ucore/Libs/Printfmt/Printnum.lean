import Ucore.Libs.Printfmt.Numbers

namespace Ucore.Libs.Printfmt

open Ucore.Data Ucore.Mm

/-! What `printnum` prints for any base, width and pad character. -/

variable {σ : Type} {sink : Sink σ} {image : Image} {invariant : σ → Prop} {out next : Output σ}
  {base number : Nat} {text : List UInt8} {ch : UInt8}

/-- The digit that a character stands for, or 16. -/
def digitValue (ch : UInt8) : Nat := (bytesOf "0123456789abcdef").idxOf ch

theorem digitValue_digitByte : ∀ digit < 16, digitValue (digitByte digit) = digit := by decide

theorem digitByte_digitValue (isDigit : digitValue ch < 16) : digitByte (digitValue ch) = ch := by
  rw [digitByte, List.getD_eq_getElem _ _ isDigit]
  exact List.getElem_idxOf isDigit

/-- The characters of the text are the digits of the number. -/
def Writes (base number : Nat) (text : List UInt8) : Prop :=
  IsNumeral base number (text.map digitValue)

theorem numeralText_writes (isBase : 1 < base) (small : base ≤ 16) (number : Nat) :
    Writes base number (numeralText base number) := by
  have digits : (numeralText base number).map digitValue = (numeral base number).map id := by
    rw [numeralText, List.map_map]
    exact List.map_congr_left fun digit member =>
      digitValue_digitByte digit ((numeral_lt isBase member).trans_le small)
  rw [Writes, digits, List.map_id]
  exact numeral_isNumeral isBase number

theorem Writes.unique (isBase : 1 < base) (small : base ≤ 16) (writes : Writes base number text) :
    text = numeralText base number := by
  have back : (text.map digitValue).map digitByte = text.map id := by
    rw [List.map_map]
    refine List.map_congr_left fun ch member => digitByte_digitValue ?_
    exact (writes.small _ (List.mem_map_of_mem member)).trans_le small
  rw [numeralText, ← IsNumeral.unique isBase writes, back, List.map_id]

/-- The padding and the numeral come out as they should exactly when the width that is left for the
first digit is an `int`. -/
theorem printnum_writes_iff (keeps : Keeps sink image invariant) (before : invariant out.state)
    (isBase : 2 ≤ base) (small : base ≤ 16) (num : UInt64) (width : Int32) (padc : Int) :
    (∃ text next, Writes base num.toNat text ∧
      Returns (fun fuel => printnum sink base padc fuel num.toNat width.toInt out) next ∧
      next.emitted =
        out.emitted ++ (List.replicate (width.toInt - text.length).toNat padc ++ chars text)) ↔
    -2 ^ 31 + ((numeral base num.toNat).length : Int) - 1 ≤ width.toInt := by
  have low := width.le_toInt
  have high := width.toInt_lt
  have length : (numeralText base num.toNat).length = (numeral base num.toNat).length := List.length_map _
  obtain ⟨some, few⟩ := numeralText_length isBase num.toNat_lt
  obtain ⟨final, returns, emitted⟩ := printnum_emits keeps before isBase small num.toNat width.toInt padc
  rw [padCount_eq ⟨low, high⟩] at emitted
  refine ⟨fun prints => ?_, fun fits => ?_⟩
  · obtain ⟨text, next, writes, returns', emitted'⟩ := prints
    obtain rfl := writes.unique isBase small
    obtain rfl := returns'.unique returns
    rw [emitted.emitted, List.append_cancel_left_eq, List.append_cancel_right_eq] at emitted'
    have pads := congrArg List.length emitted'
    rw [List.length_replicate, List.length_replicate] at pads
    obtain ⟨turns, same⟩ :=
      wrap32_turns (width.toInt - ((numeralText base num.toNat).length - 1 : Nat))
    have bounds := wrap32_bounds (width.toInt - ((numeralText base num.toNat).length - 1 : Nat))
    omega
  · rw [wrap32_of_fits (by omega) (by omega)] at emitted
    have room : (width.toInt - ((numeralText base num.toNat).length - 1 : Nat) - 1).toNat =
        (width.toInt - (numeralText base num.toNat).length).toNat := by omega
    rw [room] at emitted
    exact ⟨_, final, numeralText_writes isBase small num.toNat, returns, emitted.emitted⟩

theorem printnum_writes_ff : ∃ text next, Writes 16 255 text ∧
    Returns (fun fuel => printnum cputch 16 '0'.toNat fuel 255 4 (console [] (by decide))) next ∧
    next.emitted = List.replicate (4 - (text.length : Int)).toNat ('0'.toNat : Int) ++ chars text :=
  (printnum_writes_iff (cputch_keeps (stringMemory [] (by decide))) rfl (by decide) (by decide) 255 4
    '0'.toNat).mpr (by decide)

/-- With the least `int` as width there is no room for two digits, and almost the whole of it is
padded. -/
theorem printnum_overpads : ∃ next, Returns
    (fun fuel => printnum cputch 10 ' '.toNat fuel 10 (-2 ^ 31) (console [] (by decide))) next ∧
    next.emitted.length = 2 ^ 31 := by
  obtain ⟨next, returns, emitted⟩ := printnum_emits
    (cputch_keeps (stringMemory [] (by decide))) (rfl : (console [] (by decide)).state.memory = _)
    (by decide : 1 < 10) (by decide) 10 (-2 ^ 31) ' '.toNat
  refine ⟨next, returns, ?_⟩
  have two : (numeralText 10 10).length = 2 := by decide
  have pads : padCount (2 - 1) (-2 ^ 31) = 2 ^ 31 - 2 := by decide
  have nothing : (console [] (by decide)).emitted.length = 0 := rfl
  have text := congrArg List.length emitted.emitted
  rw [two, pads, List.length_append, List.length_append, List.length_replicate, chars_length, two,
    nothing] at text
  exact text

end Ucore.Libs.Printfmt
