import Ucore.Libs.Printfmt.Fields

namespace Ucore.Libs.Printfmt

open Ucore.Data Ucore.Mm

/-! The conversion of strings. -/

variable {σ : Type} {sink : Sink σ} {image : Image} {invariant : σ → Prop} {out : Output σ}
  {memory : KernelMemory} {format s : Object} {fmt offset : Nat} {ap left : VaList}
  {bytes : List UInt8} {escape : Escape}

/-- How many characters are shown; a negative precision is none. -/
def shownLength (precision : Int) (length : Nat) : Nat :=
  if precision < 0 then length else min length precision.toNat

theorem strnlen_returns {len cnt : Nat} (le : image.Le memory.image)
    (string : StringAt (s.view image) cnt bytes) (within : cnt ≤ len) :
    Returns (fun fuel => strnlen memory s len fuel cnt) (min (cnt + bytes.length) len) := by
  induction bytes generalizing cnt with
  | nil =>
      refine .round (.of_constant fun fuel => ?_)
      have length : min (cnt + ([] : List UInt8).length) len = cnt := by
        rw [List.length_nil]
        exact Nat.min_eq_left within
      rw [length, strnlen, load_view le string.head, ok_bind]
      split <;> simp
  | cons byte bytes ih =>
      have isByte : byte ≠ 0 := fun zero => string.noZero (by simp [zero])
      have read : load memory s cnt badString = _ := load_view le string.head
      have shift : cnt + (byte :: bytes).length = cnt + 1 + bytes.length := by
        rw [List.length_cons]
        omega
      by_cases more : cnt < len
      · refine .round ?_
        simp only [strnlen, if_pos more, read, ok_bind, List.headD_cons, if_pos isByte, shift]
        exact ih string.tail more
      · refine .round (.of_constant fun fuel => ?_)
        rw [strnlen, if_neg more, Nat.min_eq_right (by omega), Nat.le_antisymm within (Nat.not_lt.mp more)]

/-- The padding on the left, and what is left of the width. -/
def padLeft (escape : Escape) (length : Nat) : List UInt8 × Int :=
  if escape.width > 0 ∧ escape.padc ≠ '-'.toUInt8 then
    (List.replicate (wrap32 (escape.width - length)).toNat escape.padc,
      min (wrap32 (escape.width - length)) 0)
  else
    ([], escape.width)

theorem padString_returns (keeps : Keeps sink image invariant) (before : invariant out.state)
    {length : Nat}
    (measured : ∀ memory : KernelMemory, image.Le memory.image →
      Returns (fun fuel => strnlen memory s (uint64OfInt escape.precision) fuel 0) length) :
    ∃ next, Returns (fun fuel => padString sink s escape fuel out) ((padLeft escape length).2, next) ∧
      Extends invariant out (chars (padLeft escape length).1) next := by
  by_cases pads : escape.width > 0 ∧ escape.padc ≠ '-'.toUInt8
  · have measured := measured _ (keeps.reads _ before)
    obtain ⟨next, put, padded⟩ := keeps.putPad before escape.padc.toNat
      (wrap32 (escape.width - length)).toNat
    simp only [padString, padLeft, if_pos pads]
    refine ⟨next, measured.bind (.of_constant fun fuel => ?_), ?_⟩
    · rw [put, ok_bind]
    · rw [chars_replicate]
      exact padded
  · simp only [padString, padLeft, if_neg pads]
    exact ⟨out, .of_constant fun fuel => rfl, .refl before⟩

theorem shownLength_zero (precision : Int) : shownLength precision 0 = 0 := by
  rw [shownLength]
  split
  · rfl
  · exact Nat.zero_min _

theorem shownLength_succ {precision : Int} (more : precision < 0 ∨ countDown precision ≥ 0)
    (length : Nat) :
    shownLength precision (length + 1) = shownLength (countDown precision) length + 1 := by
  simp only [shownLength, countDown] at more ⊢
  by_cases none : precision < 0
  · simp only [if_pos none]
  · simp only [if_neg none] at more ⊢
    rw [if_neg (by omega)]
    omega

theorem shownLength_stop {precision : Int} (stop : ¬ (precision < 0 ∨ countDown precision ≥ 0))
    (length : Nat) : shownLength precision length = 0 := by
  simp only [shownLength, countDown, not_or] at stop ⊢
  rw [if_neg stop.1] at stop ⊢
  omega

theorem putChars_returns (keeps : Keeps sink image invariant) (before : invariant out.state)
    (altflag : Bool) (string : StringAt (s.view image) offset bytes) (precision width : Int) :
    ∃ next left, Returns (fun fuel => putChars sink s altflag fuel offset precision width out)
        (left, next) ∧
      Extends invariant out
        (chars ((bytes.take (shownLength precision bytes.length)).map (shown altflag))) next ∧
      (-2 ^ 31 ≤ width → width < 2 ^ 31 →
        left = wrap32 (width - shownLength precision bytes.length)) := by
  have unchanged (width : Int) (low : -2 ^ 31 ≤ width) (high : width < 2 ^ 31) :
      width = wrap32 (width - (0 : Nat)) := by
    rw [wrap32_of_fits (by omega) (by omega)]
    omega
  induction bytes generalizing offset precision width out with
  | nil =>
      refine ⟨out, width, .round (.of_constant fun fuel => ?_), ?_, ?_⟩
      · rw [putChars, load_view (keeps.reads _ before) string.head, ok_bind]
        exact if_neg fun both => both.1 rfl
      · rw [List.take_nil]
        exact .refl before
      · rw [List.length_nil, shownLength_zero]
        exact unchanged width
  | cons byte bytes ih =>
      have isByte : byte ≠ 0 := fun zero => string.noZero (by simp [zero])
      have read : load (sink.memory out.state) s offset badString = _ :=
        load_view (keeps.reads _ before) string.head
      rw [List.headD_cons] at read
      by_cases more : precision < 0 ∨ countDown precision ≥ 0
      · obtain ⟨middle, put, one⟩ := keeps.emit before (shown altflag byte).toNat
        obtain ⟨next, left, returns, others, width'⟩ := ih one.state string.tail (countDown precision)
          (wrap32 (width - 1))
        refine ⟨next, left, .round ?_, ?_, fun low high => ?_⟩
        · simp only [putChars, read, ok_bind, if_pos (And.intro isByte more), put]
          exact returns
        · rw [List.length_cons, shownLength_succ more, List.take_succ_cons, List.map_cons]
          exact one.trans others
        · have bounds := wrap32_bounds (width - 1)
          rw [width' bounds.1 bounds.2, wrap32_wrap32_sub, List.length_cons, shownLength_succ more,
            Nat.cast_succ, sub_sub, add_comm (1 : Int)]
      · refine ⟨out, width, .round (.of_constant fun fuel => ?_), ?_, ?_⟩
        · rw [putChars, read, ok_bind]
          exact if_neg fun both => more both.2
        · rw [shownLength_stop more]
          exact .refl before
        · rw [shownLength_stop more]
          exact unchanged width

theorem putString_returns (keeps : Keeps sink image invariant) (before : invariant out.state)
    (string : StringAt (s.view image) 0 bytes) (escape : Escape) :
    ∃ next final, Returns (fun fuel => putString sink s escape fuel out) next ∧
      Extends invariant out
        (chars ((padLeft escape (min bytes.length (uint64OfInt escape.precision))).1 ++
          ((bytes.take (shownLength escape.precision bytes.length)).map (shown escape.altflag) ++
            List.replicate final.toNat ' '.toUInt8))) next ∧
      (-2 ^ 31 ≤ escape.width → escape.width < 2 ^ 31 →
        final = wrap32 ((padLeft escape (min bytes.length (uint64OfInt escape.precision))).2 -
          shownLength escape.precision bytes.length)) := by
  have measured (memory : KernelMemory) (le : image.Le memory.image) :
      Returns (fun fuel => strnlen memory s (uint64OfInt escape.precision) fuel 0)
        (min bytes.length (uint64OfInt escape.precision)) := by
    have returns := strnlen_returns le string (Nat.zero_le (uint64OfInt escape.precision))
    rwa [Nat.zero_add] at returns
  generalize min bytes.length (uint64OfInt escape.precision) = length at measured ⊢
  obtain ⟨padded, padReturns, padText⟩ := padString_returns keeps before measured
  obtain ⟨shown, left, charReturns, charText, width⟩ := putChars_returns keeps padText.state
    escape.altflag string escape.precision (padLeft escape length).2
  obtain ⟨next, put, spaces⟩ := keeps.putPad charText.state ' '.toNat left.toNat
  refine ⟨next, left, padReturns.bind (charReturns.bind (.of_constant fun fuel => put)), ?_,
    fun low high => ?_⟩
  · rw [chars_append, chars_append]
    refine padText.trans (charText.trans ?_)
    rw [chars_replicate]
    exact spaces
  · have bounds := wrap32_bounds (escape.width - length)
    refine width ?_ ?_
    · rw [padLeft]
      split <;> omega
    · rw [padLeft]
      split <;> omega

/-- The string with its padding. -/
def stringText (padc : UInt8) (width : Int) (text : List UInt8) : List UInt8 :=
  if width > 0 ∧ padc ≠ '-'.toUInt8 then
    List.replicate (width - text.length).toNat padc ++ text
  else
    text ++ List.replicate (width - text.length).toNat ' '.toUInt8

theorem stringText_length (padc : UInt8) (width : Int) (text : List UInt8) :
    (stringText padc width text).length = max width.toNat text.length := by
  rw [stringText]
  split
  · rw [List.length_append, List.length_replicate]
    omega
  · rw [List.length_append, List.length_replicate]
    omega

theorem convert_s (format : Object) (printfmt : Object → VaList → Output σ → Except Stop (Output σ))
    (fuel fmt : Nat) (ap : VaList) (escape : Escape) (out : Output σ) :
    convert sink format printfmt fuel 's'.toUInt8 fmt ap escape out =
      putString sink (ap.head.pointer.getD (.constant (bytesOf "(null)"))) escape fuel out >>=
        fun out => .ok (fmt, ap.tail, out) :=
  rfl

/-- The text of a string that is shorter than the memory, without wrapping around. -/
theorem convert_string (format : Object) (keeps : Keeps sink image invariant)
    (before : invariant out.state) (string : StringAt (s.view image) 0 bytes)
    (isArg : ap.head.pointer = some s) (short : bytes.length < 2 ^ 30) (padc : UInt8)
    {width precision : Int} (low : -1 ≤ width) (high : width < 2 ^ 31) (least : -1 ≤ precision)
    (most : precision < 2 ^ 31) (fmt : Nat) :
    ∃ next, Returns (fun fuel => convert sink format (printfmt sink fuel) fuel 's'.toUInt8 fmt ap
        { padc, width, precision } out) (fmt, ap.tail, next) ∧
      Extends invariant out
        (chars (stringText padc width (bytes.take (shownLength precision bytes.length)))) next := by
  obtain ⟨next, final, returns, emitted, left⟩ :=
    putString_returns keeps before string { padc, width, precision }
  have left := left (Int.le_trans (by decide) low) high
  have isShown : min bytes.length (uint64OfInt precision) = shownLength precision bytes.length := by
    rw [shownLength, uint64OfInt]
    split <;> omega
  have few : shownLength precision bytes.length ≤ bytes.length := by
    rw [shownLength]
    split <;> omega
  have plain : shown false = id := rfl
  simp only [isShown, plain, List.map_id] at emitted left
  have length : (bytes.take (shownLength precision bytes.length)).length =
      shownLength precision bytes.length := List.length_take_of_le few
  refine ⟨next, ?_, ?_⟩
  · simp only [convert_s, isArg, Option.getD_some]
    exact returns.bind (.of_constant fun fuel => rfl)
  · have text : stringText padc width (bytes.take (shownLength precision bytes.length)) =
        (padLeft { padc, width, precision } (shownLength precision bytes.length)).1 ++
          (bytes.take (shownLength precision bytes.length) ++ List.replicate final.toNat ' '.toUInt8) := by
      rw [left, stringText, padLeft, length]
      generalize shownLength precision bytes.length = count at few
      by_cases pads : width > 0 ∧ padc ≠ '-'.toUInt8
      · have room : wrap32 (width - count) = width - count := wrap32_of_fits (by omega) (by omega)
        have none : (wrap32 (min (width - count) 0 - count)).toNat = 0 := by
          rw [wrap32_of_fits (by omega) (by omega)]
          omega
        simp only [if_pos pads, room, none, List.replicate_zero, List.append_nil]
      · have room : wrap32 (width - count) = width - count := wrap32_of_fits (by omega) (by omega)
        simp only [if_neg pads, room, List.nil_append]
    rw [text]
    exact emitted

/-- How a precision is written, with any zeros in front of it. -/
inductive Precise (ap : VaList) :
    (text : List UInt8) → (left : VaList) → (precision : Option Nat) → Prop where
  | absent : Precise ap [] ap none
  | digits (zeros precision : Nat) (isInt : precision < 2 ^ 31) :
      Precise ap ('.'.toUInt8 :: (List.replicate zeros '0'.toUInt8 ++ numeralText 10 precision)) ap
        (some precision)
  | star (precision : Nat) (isInt : ap.head.int = precision) :
      Precise ap ['.'.toUInt8, '*'.toUInt8] ap.tail (some precision)

/-- The digits of the precision begin with a 0. -/
def LeadingZero (text : List UInt8) : Prop := bytesOf ".0" <+: text

/-- The characters that a precision leaves. -/
def cut (precision : Option Nat) (text : List UInt8) : List UInt8 :=
  match precision with
  | none => text
  | some precision => text.take precision

theorem scan_dot {scan : Scan} {padc : UInt8} {width : Int} (arguments : scan.ap = ap)
    (finish : scan.finish = { padc, width }) :
    scan.step '.'.toUInt8 = ⟨{ padc, width := max width 0 }, none, ap⟩ := by
  have other : scan.inNumber '.'.toUInt8 ≠ true := fun number =>
    absurd (Scan.inNumber_isDigit number) (by decide)
  have dot : scan.step '.'.toUInt8 =
      ⟨if scan.finish.width < 0 then { scan.finish with width := 0 } else scan.finish, none, scan.ap⟩ :=
    Scan.step_flag other
  rw [dot, arguments, finish]
  rcases Int.lt_or_le width 0 with negative | some
  · rw [if_pos negative, Int.max_eq_right (Int.le_of_lt negative)]
  · rw [if_neg (Int.not_lt.mpr some), Int.max_eq_left some]

theorem scan_zeros (zeros : Nat) (padc : UInt8) (width : Int) :
    (List.replicate zeros '0'.toUInt8).foldl Scan.step ⟨{ padc, width }, none, ap⟩ =
      ⟨{ padc := if zeros = 0 then padc else '0'.toUInt8, width }, none, ap⟩ := by
  cases zeros with
  | zero => rfl
  | succ zeros =>
      rw [List.replicate_succ, List.foldl_cons, if_neg (Nat.succ_ne_zero zeros)]
      change (List.replicate zeros '0'.toUInt8).foldl Scan.step
        ⟨{ padc := '0'.toUInt8, width }, none, ap⟩ = _
      induction zeros with
      | zero => rfl
      | succ zeros ih => exact ih

theorem leadingZero_digits (zeros precision : Nat) :
    LeadingZero ('.'.toUInt8 :: (List.replicate zeros '0'.toUInt8 ++ numeralText 10 precision)) ↔
      zeros ≠ 0 ∨ precision = 0 := by
  have dot : LeadingZero ('.'.toUInt8 :: (List.replicate zeros '0'.toUInt8 ++ numeralText 10 precision)) ↔
      ['0'.toUInt8] <+: List.replicate zeros '0'.toUInt8 ++ numeralText 10 precision :=
    List.prefix_cons_inj _
  rw [dot]
  cases zeros with
  | succ zeros =>
      rw [List.replicate_succ, List.cons_append]
      exact iff_of_true (List.cons_prefix_cons.mpr ⟨rfl, List.nil_prefix⟩) (.inl (Nat.succ_ne_zero _))
  | zero =>
      rw [List.replicate_zero, List.nil_append]
      rcases Nat.eq_zero_or_pos precision with zero | positive
      · rw [zero]
        exact iff_of_true ⟨[], rfl⟩ (.inr rfl)
      · obtain ⟨first, rest, split, nonzero⟩ := numeral_head (by decide : 1 < 10) positive
        refine iff_of_false (fun leading => ?_) (by omega)
        have small : first < 10 := numeral_lt (by decide) (by rw [split]; simp)
        rw [numeralText, split, List.map_cons, List.cons_prefix_cons] at leading
        have same := congrArg UInt8.toNat leading.1
        rw [digitByte_toNat first small] at same
        change 48 = 48 + first at same
        omega

/-- The value of `precision` stands for this precision. -/
def Shows (value : Int) (precision : Option Nat) : Prop :=
  ∀ text : List UInt8, text.take (shownLength value text.length) = cut precision text

theorem shows_none : Shows (-1) none := fun _ => List.take_length

theorem shows_some (precision : Nat) : Shows precision (some precision) := by
  intro text
  rw [shownLength, if_neg (by omega), Int.toNat_natCast, Nat.min_comm]
  exact List.take_eq_take_min.symm

/-- What a precision leaves behind: with a 0 in front the digits are a flag first, and the precision 0
is none. -/
theorem scan_precision {text : List UInt8} {precision : Option Nat} {scan : Scan} {padc : UInt8}
    {width : Int} (precise : Precise ap text left precision) (arguments : scan.ap = ap)
    (finish : scan.finish = { padc, width }) :
    ∃ padc' width' precision', (text.foldl Scan.step scan).ap = left ∧
      (text.foldl Scan.step scan).finish =
        { padc := padc', width := width', precision := precision' } ∧
      (width' = width ∨ width' = max width 0) ∧ -1 ≤ precision' ∧ precision' < 2 ^ 31 ∧
      ((¬ LeadingZero text ∧ padc' = padc ∧ Shows precision' precision) ∨
        (LeadingZero text ∧ padc' = '0'.toUInt8 ∧ ∃ number, precision = some number ∧
          Shows precision' (if number = 0 then none else some number))) := by
  cases precise with
  | absent =>
      refine ⟨padc, width, -1, arguments, finish, .inl rfl, by decide, by decide, .inl ⟨?_, rfl, shows_none⟩⟩
      rw [LeadingZero, List.prefix_nil]
      decide
  | digits zeros number isInt =>
      rw [List.foldl_cons, scan_dot arguments finish, List.foldl_append, scan_zeros,
        leadingZero_digits]
      rcases Nat.eq_zero_or_pos number with isZero | positive
      · subst isZero
        exact ⟨'0'.toUInt8, max width 0, -1, rfl, rfl, .inr rfl, by decide, by decide,
          .inr ⟨.inr rfl, rfl, 0, rfl, shows_none⟩⟩
      · have isWidth : ¬ max width 0 < 0 := Int.not_lt.mpr (Int.le_max_right _ _)
        rw [scan_numeral positive, wrap32_of_fits (by omega) (by omega)]
        refine ⟨_, max width 0, number, rfl, if_neg isWidth, .inr rfl, by omega, by omega, ?_⟩
        by_cases none : zeros = 0
        · exact .inl ⟨by omega, if_pos none, shows_some number⟩
        · refine .inr ⟨.inl none, if_neg none, number, rfl, ?_⟩
          rw [if_neg positive.ne']
          exact shows_some number
  | star number isInt =>
      have isWidth : ¬ max width 0 < 0 := Int.not_lt.mpr (Int.le_max_right _ _)
      have bounds := wrap32_bounds ap.head.int
      rw [wrap32_int, isInt] at bounds
      rw [List.foldl_cons, scan_dot arguments finish]
      refine ⟨padc, max width 0, number, rfl, ?_, .inr rfl, by omega, bounds.2, .inl ⟨?_, rfl, shows_some number⟩⟩
      · rw [← isInt]
        exact if_neg isWidth
      · rw [LeadingZero]
        decide

theorem memory_string_lt {base size : Nat} (le : image.Le memory.image)
    (string : StringAt ((Object.memory base size).view image) 0 bytes) : bytes.length < 2 ^ 30 := by
  exact StringAt.length_lt ⟨(holds_of_view string.holds).mono le, string.noZero⟩

/-- Without a 0 in front of the precision the string is padded as the flag says. -/
theorem stringText_eq_field {flag : Flag} {padc : UInt8} {width : Nat} {found : Int}
    (text : List UInt8) (noZero : flag ≠ .zero) (pads : padc = flag.padc ∨ width = 0)
    (isWidth : found = width ∨ (width = 0 ∧ found ≤ 0)) :
    stringText padc found text = field flag width [] text := by
  rw [stringText]
  rcases Nat.eq_zero_or_pos width with zero | positive
  · rw [field_full (by omega), if_neg (by omega), List.nil_append]
    have none : (found - text.length).toNat = 0 := by omega
    rw [none, List.replicate_zero, List.append_nil]
  · have isPad := pads.resolve_right positive.ne'
    have same := isWidth.resolve_right (by omega)
    have room : (found - text.length).toNat = width - text.length := by omega
    cases flag with
    | none =>
        have notMinus : padc ≠ '-'.toUInt8 := by
          rw [isPad]
          decide
        rw [if_pos ⟨by omega, notMinus⟩, room, isPad]
        rfl
    | minus =>
        rw [if_neg fun both => both.2 isPad, room]
        rfl
    | zero => exact absurd rfl noZero

theorem zeroText {width : Nat} {found : Int} (text : List UInt8)
    (isWidth : found = width ∨ (width = 0 ∧ found ≤ 0)) :
    stringText '0'.toUInt8 found text =
      List.replicate (width - text.length) '0'.toUInt8 ++ text := by
  rw [stringText]
  split
  · have room : (found - text.length).toNat = width - text.length := by omega
    rw [room]
  · rename_i notPadded
    have zero : ¬ found > 0 := fun positive => notPadded ⟨positive, by decide⟩
    have none : (found - text.length).toNat = 0 := by omega
    have noRoom : width - text.length = 0 := by omega
    rw [none, noRoom, List.replicate_zero, List.append_nil, List.replicate_zero, List.nil_append]

theorem field_count {flag : Flag} (width : Nat) (text : List UInt8) (noZero : flag ≠ .zero) :
    (field flag width [] text).count '0'.toUInt8 = text.count '0'.toUInt8 := by
  have blank : ' '.toUInt8 ≠ '0'.toUInt8 := by decide
  cases flag with
  | none => simp [field, List.count_replicate, blank]
  | minus => simp [field, List.count_replicate, blank]
  | zero => exact absurd rfl noZero

/-- With a 0 in front of the precision there must be nothing to pad. -/
theorem zeroText_eq_field_iff {flag : Flag} {width : Nat} {found : Int} {text shown : List UInt8}
    (noZero : flag ≠ .zero) (isWidth : found = width ∨ (width = 0 ∧ found ≤ 0))
    (part : shown <+: text) :
    stringText '0'.toUInt8 found text = field flag width [] shown ↔
      width ≤ text.length ∧ text = field flag width [] shown := by
  rw [zeroText text isWidth]
  refine ⟨fun same => ?_, fun both => ?_⟩
  · have zeros := congrArg (List.count '0'.toUInt8) same
    have fewer := part.sublist.count_le '0'.toUInt8
    rw [field_count width shown noZero, List.count_append, List.count_replicate_self] at zeros
    have full : width - text.length = 0 := by omega
    rw [full, List.replicate_zero, List.nil_append] at same
    exact ⟨by omega, same⟩
  · rw [Nat.sub_eq_zero_of_le both.1, List.replicate_zero, List.nil_append]
    exact both.2

theorem field_nil {flag : Flag} (width : Nat) (noZero : flag ≠ .zero) :
    field flag width [] [] = List.replicate width ' '.toUInt8 := by
  cases flag with
  | none => exact List.append_nil _
  | minus => exact List.nil_append _
  | zero => exact absurd rfl noZero

theorem spec_append {first second : List UInt8} (left : ∀ ch ∈ first, isSpec ch = true)
    (right : ∀ ch ∈ second, isSpec ch = true) : ∀ ch ∈ first ++ second, isSpec ch = true :=
  fun ch member => (List.mem_append.mp member).elim (left ch) (right ch)

theorem precise_spec {text : List UInt8} {precision : Option Nat}
    (precise : Precise ap text left precision) : ∀ ch ∈ text, isSpec ch = true := by
  cases precise with
  | absent => simp
  | digits zeros precision =>
      refine List.forall_mem_cons.mpr ⟨by decide, spec_append (fun ch member => ?_) ?_⟩
      · rw [List.eq_of_mem_replicate member]
        decide
      · exact given_spec (.digits precision : Given ap _ _ _)
  | star =>
      exact List.forall_mem_cons.mpr ⟨by decide, List.forall_mem_singleton.mpr (by decide)⟩

theorem string_returns (keeps : Keeps sink image invariant) (before : invariant out.state)
    (flag : Flag) {widthText precisionText rest : List UInt8} {middle : VaList}
    {width precision : Option Nat} (given : Given ap widthText middle width)
    (isInt : width.getD 0 < 2 ^ 31) (precise : Precise middle precisionText left precision)
    (escape : StringAt (format.view image) fmt
      (flag.text ++ widthText ++ precisionText ++ 's'.toUInt8 :: rest))
    {value : UInt64} {extent : Nat} (isArg : left.head = .word value extent) (notNull : value ≠ 0)
    (string : StringAt ((Object.memory value.toNat extent).view image) 0 bytes) :
    ∃ padc found text next,
      Returns (fun fuel => processEscape sink format (printfmt sink fuel) fuel fmt ap out)
        (fmt + (flag.text ++ widthText ++ precisionText).length + 1, left.tail, next) ∧
      Extends invariant out (chars (stringText padc found text)) next ∧
      (found = width.getD 0 ∨ (width.getD 0 = 0 ∧ found ≤ 0)) ∧
      ((¬ LeadingZero precisionText ∧ (padc = flag.padc ∨ width.getD 0 = 0) ∧
          text = cut precision bytes) ∨
        (LeadingZero precisionText ∧ padc = '0'.toUInt8 ∧ ∃ number, precision = some number ∧
          text = cut (if number = 0 then none else some number) bytes)) := by
  have short := memory_string_lt (keeps.reads _ before) string
  obtain ⟨padc, found, arguments, finish, isWidth⟩ := scan_width given flag.padc
  obtain ⟨padc', found', value', arguments, finish, isWidth', low, high, isPrecision⟩ :=
    scan_precision precise arguments finish
  rw [← scan_flag flag ap, ← List.foldl_append, ← List.foldl_append, ← List.append_assoc]
    at arguments finish
  rw [wrap32_of_fits (by omega) (by omega)] at isWidth
  have isPointer : left.head.pointer = some (.memory value.toNat extent) := by
    rw [isArg, Arg.pointer, if_neg notNull]
  obtain ⟨next, returns, emitted⟩ := convert_string format keeps before string isPointer short padc'
    (by omega : -1 ≤ found') (by omega) low high
    (fmt + (flag.text ++ widthText ++ precisionText).length + 1)
  have spec := spec_append (spec_append (flag_spec flag) (given_spec given)) (precise_spec precise)
  refine ⟨padc', found', _, next, processEscape_ends keeps before escape spec
    (by decide : isSpec 's'.toUInt8 ≠ true) arguments finish returns, emitted, by omega, ?_⟩
  rcases isPrecision with plain | zero
  · obtain ⟨noZero, rfl, shows⟩ := plain
    exact .inl ⟨noZero, isWidth.imp And.left And.left, shows bytes⟩
  · obtain ⟨leading, isZero, number, isNumber, shows⟩ := zero
    exact .inr ⟨leading, isZero, number, isNumber, shows bytes⟩

/-- The string is cut and padded as it should be exactly when the digits of the precision do not begin
with a 0, or there is nothing to pad then: for the precision 0 the whole string must be the padding. -/
theorem string_fills_iff (keeps : Keeps sink image invariant) (before : invariant out.state)
    (flag : Flag) (noZero : flag ≠ .zero) {widthText precisionText rest : List UInt8}
    {middle : VaList} {width precision : Option Nat} (given : Given ap widthText middle width)
    (isInt : width.getD 0 < 2 ^ 31) (precise : Precise middle precisionText left precision)
    (escape : StringAt (format.view image) fmt
      (flag.text ++ widthText ++ precisionText ++ 's'.toUInt8 :: rest))
    {value : UInt64} {extent : Nat} (isArg : left.head = .word value extent) (notNull : value ≠ 0)
    (string : StringAt ((Object.memory value.toNat extent).view image) 0 bytes) :
    Emits sink format fmt ap out (field flag (width.getD 0) [] (cut precision bytes))
      (fmt + (flag.text ++ widthText ++ precisionText).length + 1) left.tail ↔
    (LeadingZero precisionText →
      if precision = some 0 then bytes = List.replicate (width.getD 0) ' '.toUInt8
      else width.getD 0 ≤ (cut precision bytes).length) := by
  obtain ⟨padc, found, text, next, returns, emitted, isWidth, isPrecision⟩ :=
    string_returns keeps before flag given isInt precise escape isArg notNull string
  rw [emits_iff returns emitted]
  rcases isPrecision with plain | zero
  · obtain ⟨noLeading, pads, rfl⟩ := plain
    exact iff_of_true (stringText_eq_field _ noZero pads isWidth) fun leading =>
      absurd leading noLeading
  · obtain ⟨leading, rfl, number, rfl, rfl⟩ := zero
    rw [imp_iff_right leading]
    by_cases isZero : number = 0
    · have nothing : cut (some number) bytes = [] := by
        rw [isZero, cut, List.take_zero]
      rw [if_pos isZero, if_pos (by rw [isZero]), nothing,
        zeroText_eq_field_iff noZero isWidth List.nil_prefix, field_nil _ noZero]
      refine ⟨And.right, fun same => ⟨?_, same⟩⟩
      rw [cut, same, List.length_replicate]
    · rw [if_neg isZero, if_neg fun same => isZero (Option.some.inj same),
        zeroText_eq_field_iff noZero isWidth List.prefix_rfl]
      exact and_iff_left_of_imp fun full => (@field_full flag _ [] _ full).symm

theorem string_fills_hello : Emits cputch (.constant (bytesOf "%-5.3s")) 1
    (oneArg (stringArg (bytesOf "hello"))) (console (bytesOf "hello") (by decide)) (bytesOf "hel  ") 6
    (oneArg (stringArg (bytesOf "hello"))).tail := by
  have escape : StringAt ((Object.constant (bytesOf "%-5.3s")).view
      (console (bytesOf "hello") (by decide)).state.memory.image) 1 (bytesOf "-5.3s") :=
    (constant_string (by decide)).tail
  have isArg : (oneArg (stringArg (bytesOf "hello"))).head = .word (UInt64.ofNat stringAddress) 6 := rfl
  have string := stringArg_string (bytesOf "hello") (by decide) (by decide)
  have text : field .minus 5 [] (cut (some 3) (bytesOf "hello")) = bytesOf "hel  " := by decide
  rw [← text]
  refine (string_fills_iff (cputch_keeps _) rfl .minus (by decide) (.digits 5) (by decide)
    (.digits 0 3 (by decide)) escape isArg (by decide) string).mpr ?_
  rw [LeadingZero]
  decide

/-- `%.0s` prints the whole string. -/
theorem string_overfills : ¬ Emits cputch (.constant (bytesOf "%.0s")) 1
    (oneArg (stringArg (bytesOf "abc"))) (console (bytesOf "abc") (by decide))
    (field .none 0 [] (cut (some 0) (bytesOf "abc"))) 4 (oneArg (stringArg (bytesOf "abc"))).tail := by
  have escape : StringAt ((Object.constant (bytesOf "%.0s")).view
      (console (bytesOf "abc") (by decide)).state.memory.image) 1 (bytesOf ".0s") :=
    (constant_string (by decide)).tail
  have isArg : (oneArg (stringArg (bytesOf "abc"))).head = .word (UInt64.ofNat stringAddress) 4 := rfl
  have string := stringArg_string (bytesOf "abc") (by decide) (by decide)
  obtain ⟨padc, found, text, next, returns, emitted, isWidth, isPrecision⟩ :=
    string_returns (cputch_keeps _) rfl .none .absent (by decide)
      (.digits 0 0 (by decide) : Precise (oneArg (stringArg (bytesOf "abc"))) _ _ _) escape isArg
      (by decide) string
  intro emits
  have same := congrArg List.length ((emits_iff returns emitted).mp emits)
  rw [stringText_length] at same
  rcases isPrecision with plain | zero
  · exact plain.1 (by rw [LeadingZero]; decide)
  · obtain ⟨_, _, number, isNumber, rfl⟩ := zero
    cases isNumber
    have three : (cut (if 0 = 0 then none else some 0) (bytesOf "abc")).length = 3 := rfl
    have nothing : (field .none 0 [] (cut (some 0) (bytesOf "abc"))).length = 0 := rfl
    omega

end Ucore.Libs.Printfmt
