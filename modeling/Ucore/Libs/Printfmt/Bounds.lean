import Ucore.Libs.Printfmt.Precision

namespace Ucore.Libs.Printfmt

open Ucore.Data Ucore.Mm

/-! What `vprintfmt` reads of its arguments. -/

/-- A conversion of the format, what stands between the `%` and it, and the arguments that are left
there. -/
structure Conversion where
  ch : UInt8
  spec : List UInt8
  ap : VaList

namespace Conversion

def scan (conversion : Conversion) : Scan := conversion.spec.foldl Scan.step (.start conversion.ap)

def escape (conversion : Conversion) : Escape := conversion.scan.finish

def arg (conversion : Conversion) : Arg := conversion.scan.ap.head

def precision (conversion : Conversion) : Option Nat := writtenPrecision conversion.spec conversion.ap

end Conversion

/-- Where in a format one is: in its text, or behind a `%` and these characters. -/
inductive Place where
  | text (ap : VaList)
  | escape (ap : VaList) (spec : List UInt8)

namespace Place

/-- The place behind the next character. -/
def next (ch : UInt8) : Place → Place
  | text ap => if ch = '%'.toUInt8 then escape ap [] else text ap
  | escape ap spec =>
      let scan := spec.foldl Scan.step (.start ap)
      if isSpec ch then escape ap (spec ++ [ch])
      else if isConversion ch then text (argumentsLeft ch scan.ap)
      else text scan.ap

/-- The conversion that a character makes. -/
def makes (ch : UInt8) : Place → List Conversion
  | text _ => []
  | escape ap spec => if isSpec ch then [] else if isConversion ch then [⟨ch, spec, ap⟩] else []

end Place

/-- The conversions that a format makes. -/
def conversions : (format : List UInt8) → Place → List Conversion
  | [], _ => []
  | ch :: format, place => place.makes ch ++ conversions format (place.next ch)

variable {σ : Type} {sink : Sink σ} {image : Image} {invariant : σ → Prop} {out next : Output σ}
  {text s : Object} {fmt : Nat} {ap left : VaList} {memory : KernelMemory} {ch : UInt8}
  {bytes spec tail rest : List UInt8}

/-- The bytes at a pointer that may be examined: up to the terminator, but with a precision no more
than so many. -/
inductive ValidString (image : Image) (precision : Option Nat) (address extent : Nat) : Prop where
  | terminated (bytes : List UInt8) (isExtent : extent = bytes.length + 1)
      (string : StringAt ((Object.memory address extent).view image) 0 bytes)
      (within : ∀ limit, precision = some limit → bytes.length < limit)
  | array (bytes : List UInt8) (isExtent : extent = bytes.length)
      (holds : ((Object.memory address extent).view image).Holds 0 bytes) (noZero : 0 ∉ bytes)
      (isPrecision : precision = some bytes.length)

/-- The argument of `%s` is `NULL` or points to such bytes, and its precision is an `int`. -/
def Conversion.Matches (image : Image) (conversion : Conversion) : Prop :=
  conversion.ch = 's'.toUInt8 → (∀ limit, conversion.precision = some limit → limit < 2 ^ 31) ∧
    ∃ value extent, conversion.arg = .word value extent ∧
      (value = 0 ∨ ValidString image conversion.precision value.toNat extent)

/-- The argument of `%e` is not the least `int`, and that of `%s` is `NULL`, is written without a
precision or has its terminator within it. -/
def Conversion.Fine (image : Image) (conversion : Conversion) : Prop :=
  (conversion.ch = 'e'.toUInt8 → conversion.arg.int ≠ -2 ^ 31) ∧
  (conversion.ch = 's'.toUInt8 → ∀ s limit, conversion.arg.pointer = some s →
    conversion.precision = some limit → ∃ offset < limit, s.view image offset = some 0)

theorem conversions_plain (plain : '%'.toUInt8 ∉ bytes) :
    conversions (bytes ++ rest) (.text ap) = conversions rest (.text ap) := by
  induction bytes with
  | nil => rfl
  | cons ch bytes ih =>
      have other : ch ≠ '%'.toUInt8 := fun same => plain (by simp [same])
      rw [List.cons_append, conversions, Place.makes, Place.next, if_neg other, List.nil_append]
      exact ih fun member => plain (List.mem_cons_of_mem _ member)

theorem conversions_spec {before : List UInt8} (all : ∀ ch ∈ spec, isSpec ch = true) :
    conversions (spec ++ rest) (.escape ap before) = conversions rest (.escape ap (before ++ spec)) := by
  induction spec generalizing before with
  | nil => rw [List.nil_append, List.append_nil]
  | cons ch spec ih =>
      have isMember := all ch (by simp)
      rw [List.cons_append, conversions, Place.makes, Place.next, if_pos isMember, if_pos isMember,
        List.nil_append, ih fun ch member => all ch (List.mem_cons_of_mem _ member), List.append_assoc]
      rfl

theorem conversions_escape (all : ∀ ch ∈ spec, isSpec ch = true) :
    conversions ('%'.toUInt8 :: (spec ++ rest)) (.text ap) = conversions rest (.escape ap spec) := by
  rw [conversions, Place.makes, Place.next, if_pos rfl, List.nil_append, conversions_spec all,
    List.nil_append]

/-! An array without a terminator. -/

/-- The loop reads the next character before it looks at the precision. -/
theorem putChars_array (keeps : Keeps sink image invariant) (before : invariant out.state)
    (altflag : Bool) {p : Nat} {precision : Int} (width : Int)
    (holds : (s.view image).Holds p bytes) (noZero : 0 ∉ bytes)
    (long : precision < 0 ∨ bytes.length ≤ precision)
    (outside : ∀ image, s.view image (p + bytes.length) = none) :
    Ends (fun fuel => putChars sink s altflag fuel p precision width out) (.error (.panic badString)) := by
  induction bytes generalizing p precision width out with
  | nil =>
      have outside : ∀ image, s.view image p = none := outside
      refine .round (.of_constant fun fuel => ?_)
      rw [putChars, load_none (outside _), error_bind]
  | cons byte bytes ih =>
      have isByte : byte ≠ 0 := fun zero => noZero (by simp [zero])
      rw [List.length_cons] at long
      have down : (precision < 0 ∧ countDown precision < 0) ∨ (bytes.length : Int) ≤ countDown precision := by
        rw [countDown]
        split
        · exact .inl ⟨by omega, by omega⟩
        · right
          omega
      have shows : byte ≠ 0 ∧ (precision < 0 ∨ countDown precision ≥ 0) := ⟨isByte, by omega⟩
      have shift : p + (byte :: bytes).length = p + 1 + bytes.length := by
        rw [List.length_cons]
        omega
      obtain ⟨next, put, one⟩ := keeps.emit before (shown altflag byte).toNat
      refine .round ?_
      simp only [putChars, load_view (keeps.reads _ before) holds.1, ok_bind, if_pos shows, put]
      exact ih one.state _ holds.2 (fun zero => noZero (List.mem_cons_of_mem _ zero))
        (down.imp And.right id) fun image => shift ▸ outside image

theorem putString_array (keeps : Keeps sink image invariant) (before : invariant out.state)
    {address : Nat} {escape : Escape}
    (holds : ((Object.memory address bytes.length).view image).Holds 0 bytes) (noZero : 0 ∉ bytes)
    (long : escape.precision < 0 ∨ bytes.length ≤ escape.precision) :
    Ends (fun fuel => putString sink (.memory address bytes.length) escape fuel out)
      (.error (.panic badString)) := by
  rcases padString_halts keeps before (.memory address bytes.length) escape with pads | stops
  · obtain ⟨padded, pads, after⟩ := pads
    have reads := putChars_array keeps after escape.altflag padded.1 holds noZero long
      fun image => if_neg (by omega)
    exact Ends.bind pads reads.bind_error
  · obtain ⟨stop, stops, isString⟩ := stops
    cases isString
    exact stops.bind_error

/-! A conversion returns exactly when it is fine. -/

theorem fine_error {conversion : Conversion} (isError : conversion.ch = 'e'.toUInt8) :
    conversion.Fine image ↔ conversion.arg.int ≠ -2 ^ 31 := by
  have noString : conversion.ch ≠ 's'.toUInt8 := by
    rw [isError]
    decide
  exact ⟨fun fine => fine.1 isError, fun other => ⟨fun _ => other, fun same => absurd same noString⟩⟩

theorem fine_string {conversion : Conversion} (isString : conversion.ch = 's'.toUInt8) :
    conversion.Fine image ↔ ∀ s limit, conversion.arg.pointer = some s →
      conversion.precision = some limit → ∃ offset < limit, s.view image offset = some 0 := by
  have noError : conversion.ch ≠ 'e'.toUInt8 := by
    rw [isString]
    decide
  exact ⟨fun fine => fine.2 isString, fun ends => ⟨fun same => absurd same noError, fun _ => ends⟩⟩

theorem fine_plain {conversion : Conversion} (noError : conversion.ch ≠ 'e'.toUInt8)
    (noString : conversion.ch ≠ 's'.toUInt8) : conversion.Fine image :=
  ⟨fun same => absurd same noError, fun same => absurd same noString⟩

theorem array_not_terminated {address offset : Nat} (holds : image.Holds address bytes)
    (noZero : 0 ∉ bytes) (inside : offset < bytes.length) : image (address + offset) ≠ some 0 := by
  intro zero
  rw [holds.getElem? inside] at zero
  exact noZero (List.mem_of_getElem? zero)

theorem convert_string_iff (keeps : Keeps sink image invariant) (before : invariant out.state)
    (text : Object) (conversion : Conversion) (fmt : Nat) (isString : conversion.ch = 's'.toUInt8)
    (isMatch : conversion.Matches image) :
    (conversion.Fine image → ∃ next, Returns (fun fuel =>
      convert sink text (printfmt sink fuel) fuel 's'.toUInt8 fmt conversion.scan.ap conversion.escape out)
        (fmt, conversion.scan.ap.tail, next) ∧ invariant next.state) ∧
    (¬ conversion.Fine image → ∃ stop, Ends (fun fuel =>
      convert sink text (printfmt sink fuel) fuel 's'.toUInt8 fmt conversion.scan.ap conversion.escape out)
        (.error stop)) := by
  have printed {s : Object} {bytes : List UInt8} (string : StringAt (s.view image) 0 bytes)
      (isArg : conversion.scan.ap.head.pointer.getD (.constant (bytesOf "(null)")) = s) :
      ∃ next, Returns (fun fuel => convert sink text (printfmt sink fuel) fuel 's'.toUInt8 fmt
        conversion.scan.ap conversion.escape out) (fmt, conversion.scan.ap.tail, next) ∧
          invariant next.state := by
    obtain ⟨next, final, returns, emitted, _⟩ := putString_returns keeps before string conversion.escape
    simp only [convert_s, isArg]
    exact ⟨next, returns.bind (.of_constant fun fuel => rfl), emitted.state⟩
  obtain ⟨isInt, value, extent, isArg, isValid⟩ := isMatch isString
  change conversion.scan.ap.head = .word value extent at isArg
  rw [fine_string isString]
  by_cases isNull : value = 0
  · have noPointer : conversion.scan.ap.head.pointer = none := by rw [isArg, Arg.pointer, if_pos isNull]
    refine ⟨fun _ => printed (constant_string (by decide : 0 ∉ bytesOf "(null)")) ?_, fun notFine => ?_⟩
    · rw [noPointer, Option.getD_none]
    · refine absurd (fun s limit isPointer _ => ?_) notFine
      cases noPointer.symm.trans isPointer
  · have isPointer : conversion.scan.ap.head.pointer = some (.memory value.toNat extent) := by
      rw [isArg, Arg.pointer, if_neg isNull]
    rcases isValid.resolve_left isNull with ⟨bytes, isExtent, string, within⟩ |
      ⟨bytes, isExtent, holds, noZero, isPrecision⟩
    · refine ⟨fun _ => printed string (by rw [isPointer, Option.getD_some]), fun notFine => ?_⟩
      refine absurd (fun s limit same isLimit => ?_) notFine
      cases isPointer.symm.trans same
      refine ⟨bytes.length, within limit isLimit, ?_⟩
      have zero := (Image.holds_append.mp string.holds).2.1
      rwa [Nat.zero_add] at zero
    · subst isExtent
      refine ⟨fun fine => ?_, fun _ => ⟨.panic badString, ?_⟩⟩
      · obtain ⟨offset, inside, isZero⟩ := fine _ _ isPointer isPrecision
        have missing := array_not_terminated holds noZero inside
        rw [Nat.zero_add] at missing
        exact absurd isZero missing
      · have long := writtenPrecision_covers conversion.spec conversion.ap _ isPrecision
          (isInt _ isPrecision)
        simp only [convert_s, isPointer, Option.getD_some]
        exact (putString_array keeps before holds noZero long).bind_error

theorem convert_iff (keeps : Keeps sink image invariant) (before : invariant out.state)
    (text : Object) (conversion : Conversion) (fmt : Nat) (converts : isConversion conversion.ch = true)
    (isMatch : conversion.Matches image) :
    (conversion.Fine image → ∃ next, Returns (fun fuel => convert sink text (printfmt sink fuel) fuel
      conversion.ch fmt conversion.scan.ap conversion.escape out)
        (fmt, argumentsLeft conversion.ch conversion.scan.ap, next) ∧ invariant next.state) ∧
    (¬ conversion.Fine image → ∃ stop, Ends (fun fuel => convert sink text (printfmt sink fuel) fuel
      conversion.ch fmt conversion.scan.ap conversion.escape out) (.error stop)) := by
  by_cases isError : conversion.ch = 'e'.toUInt8
  · obtain ⟨returns, stops⟩ := convert_error keeps before text conversion.escape conversion.scan.ap fmt
    rw [fine_error isError, isError]
    refine ⟨fun other => ?_, fun least => ⟨_, stops (not_not.mp least)⟩⟩
    obtain ⟨next, returns, message⟩ := returns other
    exact ⟨next, returns, message.state⟩
  · by_cases isString : conversion.ch = 's'.toUInt8
    · rw [isString]
      exact convert_string_iff keeps before text conversion fmt isString isMatch
    · refine ⟨fun _ => ?_, fun notFine => absurd (fine_plain isError isString) notFine⟩
      obtain ⟨next, returns, shown⟩ := convert_plain keeps before text conversion.escape conversion.scan.ap
        fmt [] converts isError isString
      exact ⟨next, returns, shown.state⟩

/-! The conversions of a format. -/

theorem percent_not_plain : ¬ isConversion ch → ch ≠ '%'.toUInt8 := fun other same =>
  other (by rw [same]; decide)

/-- After what is not recognized the scan goes on as from its end. -/
theorem conversions_rejected (all : ∀ ch ∈ spec, isSpec ch = true)
    (stops : isSpec (tail.headD 0) ≠ true) (other : isConversion (tail.headD 0) ≠ true) :
    conversions ('%'.toUInt8 :: (spec ++ tail)) (.text ap) =
      conversions (spec ++ tail) (.text (ap.drop (spec.count '*'.toUInt8))) := by
  rw [conversions_escape all, conversions_plain (percent_notMem all)]
  cases tail with
  | nil => rfl
  | cons ch tail =>
      rw [List.headD_cons] at stops other
      rw [conversions, conversions, Place.makes, Place.makes, Place.next, Place.next, if_neg stops,
        if_neg other, if_neg (percent_not_plain other)]
      simp only [if_neg stops, if_neg other]
      rw [scan_arguments]
      rfl

theorem conversions_converted (all : ∀ ch ∈ spec, isSpec ch = true) (stops : isSpec ch ≠ true)
    (converts : isConversion ch = true) :
    conversions ('%'.toUInt8 :: (spec ++ ch :: tail)) (.text ap) = ⟨ch, spec, ap⟩ ::
      conversions tail (.text (argumentsLeft ch (spec.foldl Scan.step (.start ap)).ap)) := by
  rw [conversions_escape all, conversions, Place.makes, Place.next]
  simp only [if_neg stops, if_pos converts, List.singleton_append]

/-- The scan gets to the end of the format exactly when all conversions return. -/
theorem vprintfmtLoop_returns_iff {rest : List UInt8} {fmt : Nat} {out : Output σ}
    (keeps : Keeps sink image invariant) (before : invariant out.state)
    (string : StringAt (text.view image) fmt rest) (ap : VaList)
    (isMatch : ∀ conversion ∈ conversions rest (.text ap), conversion.Matches image) :
    (∃ final, Returns (fun fuel => vprintfmtLoop sink fuel text fmt ap out) final) ↔
      ∀ conversion ∈ conversions rest (.text ap), conversion.Fine image := by
  induction rest using format_induction generalizing fmt out ap with
  | done => exact iff_of_true ⟨out, round_end keeps before string ap⟩ fun _ member => by cases member
  | literal ch rest plain ih =>
      obtain ⟨next, one, ends⟩ := round_literal keeps before string plain
      rw [conversions, Place.makes, Place.next, if_neg plain, List.nil_append] at isMatch ⊢
      rw [(vprintfmtLoop_halts keeps one.state string.tail ap).returns_iff (ends ap)]
      exact ih one.state string.tail ap isMatch
  | escape spec ch tail all stops conversion ih =>
      rw [conversions_converted all stops conversion] at isMatch ⊢
      rw [List.forall_mem_cons] at isMatch ⊢
      obtain ⟨returns, fails⟩ := convert_iff keeps before text ⟨ch, spec, ap⟩ (fmt + 1 + spec.length + 1)
        conversion isMatch.1
      by_cases fine : Conversion.Fine image ⟨ch, spec, ap⟩
      · obtain ⟨next, returns, after⟩ := returns fine
        have onward := string.tail.skip.tail
        rw [and_iff_right fine, (vprintfmtLoop_halts keeps after onward _).returns_iff fun _ others =>
          round_converts keeps before string all stops returns others]
        exact ih after onward _ isMatch.2
      · obtain ⟨stop, fails⟩ := fails fine
        refine iff_of_false (fun returns => ?_) fun both => fine both.1
        obtain ⟨final, returns⟩ := returns
        cases Ends.unique returns (round_fails keeps before string all stops fails)
  | rejected spec tail all stops other ih =>
      obtain ⟨next, escape, one⟩ := escape_rejected keeps before string all stops other ap
      rw [conversions_rejected all stops other] at isMatch ⊢
      rw [(vprintfmtLoop_halts keeps one.state string.tail _).returns_iff fun _ others =>
        round_escape keeps before string escape others]
      exact ih one.state string.tail _ isMatch

/-- With arguments that match the format nothing outside of them and of `error_string` is read exactly
when every conversion is fine. -/
theorem vprintfmt_bounded_iff (keeps : Keeps sink image invariant) (before : invariant out.state)
    {base : Nat} (format : StringAt image base bytes) (ap : VaList)
    (isMatch : ∀ conversion ∈ conversions bytes (.text ap), conversion.Matches image) :
    (∃ final, Returns (vprintfmt sink (.memory base (bytes.length + 1)) ap out) final) ↔
      ∀ conversion ∈ conversions bytes (.text ap), conversion.Fine image :=
  vprintfmtLoop_returns_iff keeps before (memory_string format (Nat.lt_succ_self _)) ap isMatch

/-- A precision and what is behind it, with the format as its own argument. -/
theorem vprintfmt_bounded_nine : ∃ final, Returns (vprintfmt cputch (.memory stringAddress 5)
    (oneArg (stringArg (bytesOf "%.9s"))) (console (bytesOf "%.9s") (by decide))) final := by
  have format := stringMemory_string (bytesOf "%.9s") (by decide) (by decide)
  have string := stringArg_string (bytesOf "%.9s") (by decide) (by decide)
  have made : conversions (bytesOf "%.9s") (.text (oneArg (stringArg (bytesOf "%.9s")))) =
      [⟨'s'.toUInt8, bytesOf ".9", oneArg (stringArg (bytesOf "%.9s"))⟩] := rfl
  have nine : writtenPrecision (bytesOf ".9") (oneArg (stringArg (bytesOf "%.9s"))) = some 9 := rfl
  have pointer : (stringArg (bytesOf "%.9s")).pointer =
      some (.memory (UInt64.ofNat stringAddress).toNat 5) := rfl
  have keeps := cputch_keeps (stringMemory (bytesOf "%.9s") (by decide))
  refine (vprintfmt_bounded_iff keeps rfl format _ ?_).mpr ?_
  · rw [made, List.forall_mem_singleton]
    refine fun _ => ⟨fun limit isLimit => ?_, _, _, rfl,
      .inr (.terminated _ rfl string fun limit isLimit => ?_)⟩
    · cases nine.symm.trans isLimit
      decide
    · cases nine.symm.trans isLimit
      decide
  · rw [made, List.forall_mem_singleton, fine_string rfl]
    intro s limit isPointer isLimit
    cases pointer.symm.trans isPointer
    cases nine.symm.trans isLimit
    have terminator := (Image.holds_append.mp string.holds).2.1
    exact ⟨4, by decide, terminator⟩

theorem fourBytes : ((Object.memory (UInt64.ofNat stringAddress).toNat (bytesOf "%.4s").length).view
    (stringMemory (bytesOf "%.4s") (by decide)).image).Holds 0 (bytesOf "%.4s") :=
  ⟨rfl, rfl, rfl, rfl, trivial⟩

/-- The fifth byte of an array of four is read, and `error_string[-2147483648]`. -/
theorem vprintfmt_unbounded :
    ((∀ conversion ∈ conversions (bytesOf "%.4s")
        (.text (oneArg (.word (UInt64.ofNat stringAddress) 4))),
      conversion.Matches (stringMemory (bytesOf "%.4s") (by decide)).image) ∧
      Ends (vprintfmt cputch (.memory stringAddress 5)
        (oneArg (.word (UInt64.ofNat stringAddress) 4)) (console (bytesOf "%.4s") (by decide)))
          (.error (.panic badString))) ∧
    Ends (vprintfmt cputch (.memory stringAddress 3) (oneArg (intArg (-2 ^ 31)))
      (console (bytesOf "%e") (by decide))) (.error (.panic badIndex)) := by
  refine ⟨⟨?_, ?_⟩, ?_⟩
  · have array := stringMemory_string (bytesOf "%.4s") (by decide) (by decide)
    have made : conversions (bytesOf "%.4s") (.text (oneArg (.word (UInt64.ofNat stringAddress) 4))) =
        [⟨'s'.toUInt8, bytesOf ".4", oneArg (.word (UInt64.ofNat stringAddress) 4)⟩] := rfl
    have four : writtenPrecision (bytesOf ".4") (oneArg (.word (UInt64.ofNat stringAddress) 4)) = some 4 := rfl
    rw [made, List.forall_mem_singleton]
    refine fun _ => ⟨fun limit isLimit => ?_, _, _, rfl, .inr (.array _ rfl fourBytes array.noZero four)⟩
    cases four.symm.trans isLimit
    decide
  · have array := stringMemory_string (bytesOf "%.4s") (by decide) (by decide)
    have keeps := cputch_keeps (stringMemory (bytesOf "%.4s") (by decide))
    have string : StringAt ((Object.memory stringAddress 5).view
        (stringMemory (bytesOf "%.4s") (by decide)).image) 0
        ('%'.toUInt8 :: (bytesOf ".4" ++ 's'.toUInt8 :: [])) := memory_string array (by decide)
    have reads : Ends (fun fuel => putString cputch (.memory (UInt64.ofNat stringAddress).toNat 4)
        { width := 0, precision := 4 } fuel (console (bytesOf "%.4s") (by decide)))
        (.error (.panic badString)) :=
      putString_array keeps rfl fourBytes array.noZero (.inr le_rfl)
    have spec : ∀ ch ∈ bytesOf ".4", isSpec ch = true :=
      List.forall_mem_cons.mpr ⟨by decide, List.forall_mem_singleton.mpr (by decide)⟩
    exact round_fails keeps rfl string spec (by decide) reads.bind_error
  · have error := stringMemory_string (bytesOf "%e") (by decide) (by decide)
    have keeps := cputch_keeps (stringMemory (bytesOf "%e") (by decide))
    have string : StringAt ((Object.memory stringAddress 3).view
        (stringMemory (bytesOf "%e") (by decide)).image) 0 ('%'.toUInt8 :: ([] ++ 'e'.toUInt8 :: [])) :=
      memory_string error (by decide)
    have least : Ends (fun fuel => convert cputch (.memory stringAddress 3) (printfmt cputch fuel) fuel
        'e'.toUInt8 2 (oneArg (intArg (-2 ^ 31))) {} (console (bytesOf "%e") (by decide)))
        (.error (.panic badIndex)) :=
      (convert_error keeps rfl _ _ _ _).2 (by decide)
    exact round_fails keeps rfl string (fun _ member => absurd member List.not_mem_nil) (by decide) least

end Ucore.Libs.Printfmt
