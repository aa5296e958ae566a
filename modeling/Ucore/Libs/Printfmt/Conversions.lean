import Ucore.Libs.Printfmt.Numbers
import Ucore.Libs.Printfmt.Rounds
import Ucore.Libs.Printfmt.Strings

namespace Ucore.Libs.Printfmt

open Ucore.Data Ucore.Mm

/-! Every conversion ends, whatever its argument is. -/

variable {σ : Type} {sink : Sink σ} {image : Image} {invariant : σ → Prop} {out next : Output σ}
  {s text : Object} {fmt : Nat} {ap left : VaList} {memory : KernelMemory} {ch : UInt8}

def BadString (stop : Stop) : Prop := stop = .panic badString

/-- The only faults of `vprintfmt`: a bad string, and an index outside of `error_string`. -/
def BadArgument (stop : Stop) : Prop := BadString stop ∨ stop = .panic badIndex

/-- A number in the field that an escape asks for. -/
def numberText (escape : Escape) (base : Nat) (value : Int) : List UInt8 :=
  signText value ++ padDigits escape.padc escape.width (numeralText base value.natAbs)

/-! The messages of `%e`. -/

/-- What is printed for the code of an error. -/
def errorMessage (code : Int) : List UInt8 :=
  ((errorTexts[code.toNat]?).join).getD (bytesOf "error " ++ (signText code ++ numeralText 10 code.natAbs))

theorem errorCode_of_ne {err : Int} (low : -2 ^ 31 < err) (high : err < 2 ^ 31) :
    errorCode err = err.natAbs := by
  rw [errorCode]
  split
  · rw [wrap32_of_fits (by omega) (by omega)]
    omega
  · omega

theorem errorString_ok {err : Int} (low : 0 ≤ err) (high : ¬ err > MAXERROR) :
    ∃ p, errorString err = .ok p ∧ errorTexts[err.toNat]? = some p ∧
      ∀ text, p = some text → 0 ∉ text ∧ text.length < 2 ^ 30 := by
  have inside : err.toNat < errorTexts.length := by
    change err.toNat < 7
    simp only [MAXERROR] at high
    omega
  have clean : ∀ text ∈ errorTexts.filterMap id, 0 ∉ text ∧ text.length < 2 ^ 30 := by decide
  refine ⟨errorTexts[err.toNat], ?_, List.getElem?_eq_getElem inside, fun text isText => clean text ?_⟩
  · rw [errorString, if_pos low, List.getElem?_eq_getElem inside]
  · exact List.mem_filterMap.mpr ⟨_, List.getElem_mem inside, isText⟩

theorem intArg_int {value : Int} (low : -2 ^ 31 ≤ value) (high : value < 2 ^ 31) :
    (intArg value).int = value := by
  have reduced : Int.bmod (value % 2 ^ 64) 0x100000000 = Int.bmod value 0x100000000 := by
    have twice : value % 2 ^ 64 % ((0x100000000 : Nat) : Int) = value % ((0x100000000 : Nat) : Int) :=
      Int.emod_emod_of_dvd value (by decide)
    rw [Int.bmod_def, Int.bmod_def, twice]
  have bits : ((UInt64.ofNat (uint64OfInt value)).toNat : Int) = value % 2 ^ 64 := by
    rw [UInt64.toNat_ofNat', uint64OfInt]
    omega
  rw [intArg, Arg.int, int32_eq_wrap32, Arg.value, bits, wrap32, reduced]
  exact wrap32_of_fits low high

theorem error_number_returns (keeps : Keeps sink image invariant) (before : invariant out.state)
    {err : Int} (low : -2 ^ 31 ≤ err) (high : err < 2 ^ 31) :
    ∃ next, Returns (fun fuel => printfmt sink fuel (.constant (bytesOf "error %d"))
      (oneArg (intArg err)) out) next ∧
      Extends invariant out (chars (bytesOf "error " ++ (signText err ++ numeralText 10 err.natAbs))) next := by
  have string : StringAt ((Object.constant (bytesOf "error %d")).view image) 0
      (bytesOf "error " ++ bytesOf "%d") := constant_string (by decide)
  obtain ⟨middle, copied, copies⟩ := round_literals keeps before string (by decide)
  have escape : StringAt ((Object.constant (bytesOf "error %d")).view image) 6 (bytesOf "%d") :=
    string.skip
  obtain ⟨padc, next, _, returns, emitted⟩ := number_returns keeps copied.state .d .none 0
    (.absent : Given (oneArg (intArg err)) _ _ _) (by decide) (escape.tail : StringAt _ 7 (bytesOf "d"))
  have ends : StringAt ((Object.constant (bytesOf "error %d")).view image) 8 [] := escape.tail.tail
  have isInt : (oneArg (intArg err)).head = intArg err := rfl
  have value : Number.d.value (intArg err) 0 = err := by
    rw [Number.value, getint, if_neg (by decide), if_neg (by decide)]
    exact intArg_int low high
  have ten : Number.d.base = 10 := rfl
  rw [isInt, value, ten, Option.getD_none, Nat.zero_sub, List.replicate_zero, List.nil_append] at emitted
  rw [chars_append]
  exact ⟨next, copies _ _ (round_escape keeps copied.state escape returns
    (round_end keeps emitted.state ends _)), copied.trans emitted⟩

theorem percent_s_returns (keeps : Keeps sink image invariant) (before : invariant out.state)
    (after : invariant next.state)
    (converts : Returns (fun fuel => convert sink (.constant (bytesOf "%s")) (printfmt sink fuel) fuel
      's'.toUInt8 2 ap {} out) (2, ap.tail, next)) :
    Returns (fun fuel => printfmt sink fuel (.constant (bytesOf "%s")) ap out) next := by
  have string : StringAt ((Object.constant (bytesOf "%s")).view image) 0 (bytesOf "%s") :=
    constant_string (by decide)
  have ends : StringAt ((Object.constant (bytesOf "%s")).view image) 2 [] := string.tail.tail
  have spec : ∀ ch ∈ ([] : List UInt8), isSpec ch = true := fun _ member =>
    absurd member List.not_mem_nil
  have format : StringAt ((Object.constant (bytesOf "%s")).view image) 0
      ('%'.toUInt8 :: ([] ++ 's'.toUInt8 :: [])) := string
  exact round_converts keeps before format spec (by decide) converts (round_end keeps after ends _)

theorem shown_returns (keeps : Keeps sink image invariant) (before : invariant out.state) {text : List UInt8}
    (isArg : ap.head.pointer = some s) (string : StringAt (s.view image) 0 text)
    (short : text.length < 2 ^ 30) :
    ∃ next, Returns (fun fuel => printfmt sink fuel (.constant (bytesOf "%s")) ap out) next ∧
      Extends invariant out (chars text) next := by
  obtain ⟨next, returns, emitted⟩ := convert_string (.constant (bytesOf "%s")) keeps before string isArg
    short ' '.toUInt8 (le_refl (-1)) (by decide) (le_refl (-1)) (by decide) 2
  have whole : stringText ' '.toUInt8 (-1) (text.take (shownLength (-1) text.length)) = text := by
    rw [stringText, if_neg (by decide), shownLength, if_pos (by decide), List.take_length]
    have none : ((-1 : Int) - text.length).toNat = 0 := by omega
    rw [none, List.replicate_zero, List.append_nil]
  rw [whole] at emitted
  exact ⟨next, percent_s_returns keeps before emitted.state returns, emitted⟩

theorem text_returns (keeps : Keeps sink image invariant) (before : invariant out.state) {text : List UInt8}
    {value : UInt64} {extent : Nat} (notNull : value ≠ 0)
    (string : StringAt ((Object.memory value.toNat extent).view image) 0 text) :
    ∃ next, Returns (fun fuel => printfmt sink fuel (.constant (bytesOf "%s"))
      (oneArg (.word value extent)) out) next ∧ Extends invariant out (chars text) next :=
  shown_returns keeps before (if_neg notNull) string (memory_string_lt (keeps.reads _ before) string)

theorem putError_returns (keeps : Keeps sink image invariant) (before : invariant out.state)
    {err : Int} (low : -2 ^ 31 < err) (high : err < 2 ^ 31) :
    ∃ next, Returns (fun fuel => putError (printfmt sink fuel) err out) next ∧
      Extends invariant out (chars (errorMessage (errorCode err))) next := by
  have code := errorCode_of_ne low high
  have number : ∃ next, Returns (fun fuel => printfmt sink fuel (.constant (bytesOf "error %d"))
      (oneArg (intArg (errorCode err))) out) next ∧ Extends invariant out
        (chars (bytesOf "error " ++ (signText (errorCode err) ++ numeralText 10 (errorCode err).natAbs)))
          next :=
    error_number_returns keeps before (by omega) (by omega)
  by_cases above : errorCode err > MAXERROR
  · have outside : errorTexts[(errorCode err).toNat]? = none := by
      refine List.getElem?_eq_none ?_
      change 7 ≤ (errorCode err).toNat
      simp only [MAXERROR] at above
      omega
    simp only [putError, if_pos above, errorMessage, outside, Option.join_none, Option.getD_none]
    exact number
  · obtain ⟨p, found, listed, clean⟩ := errorString_ok (by omega : 0 ≤ errorCode err) above
    simp only [putError, if_neg above, found, ok_bind, errorMessage, listed, Option.join_some]
    cases p with
    | none => exact number
    | some p =>
        have isArg : (oneArg (.constant p)).head.pointer = some (.constant p) := rfl
        exact shown_returns keeps before isArg (constant_string (clean p rfl).1) (clean p rfl).2

/-- The negation of the least `int` is itself. -/
theorem putError_least (printfmt : Object → VaList → Output σ → Except Stop (Output σ))
    (out : Output σ) : putError printfmt (-2 ^ 31) out = .error (.panic badIndex) := by
  have code : errorCode (-2 ^ 31) = -2 ^ 31 := by decide
  simp only [putError, code]
  rfl

/-! Strings, also such as do not end. -/

theorem load_none {offset : Nat} {fault : String} (outside : s.view memory.image offset = none) :
    load memory s offset fault = .error (.panic fault) := by
  rw [load, outside]

theorem view_bounded (s : Object) :
    ∃ bound, ∀ image offset, bound ≤ offset → s.view image offset = none := by
  cases s with
  | memory base size => exact ⟨size, fun image offset outside => if_neg (Nat.not_lt.mpr outside)⟩
  | constant text =>
      refine ⟨text.length + 1, fun image offset outside => ?_⟩
      rw [Object.view, Image.ofBytes, if_pos (Nat.zero_le _), Nat.sub_zero]
      exact List.getElem?_eq_none (by rw [List.length_append, List.length_singleton]; exact outside)

theorem strnlen_halts (memory : KernelMemory) (s : Object) (len cnt : Nat) :
    Halts BadString (fun fuel => strnlen memory s len fuel cnt) fun _ => True := by
  induction more : len - cnt generalizing cnt with
  | zero =>
      refine .inl ⟨cnt, .round (.of_constant fun fuel => ?_), trivial⟩
      rw [strnlen, if_neg (by omega)]
  | succ more ih =>
      have inside : cnt < len := by omega
      refine .round ?_
      simp only [strnlen, if_pos inside]
      cases read : s.view memory.image cnt with
      | none =>
          refine .of_error (.of_constant fun fuel => ?_) rfl
          rw [load_none read, error_bind]
      | some byte =>
          simp only [load_ok read, ok_bind]
          by_cases isByte : byte ≠ 0
          · simp only [if_pos isByte]
            exact ih (cnt + 1) (by omega)
          · simp only [if_neg isByte]
            exact .of_returns (.of_constant fun fuel => rfl) trivial

theorem putChars_halts (keeps : Keeps sink image invariant) (before : invariant out.state)
    (s : Object) (altflag : Bool) (p : Nat) (precision width : Int) :
    Halts BadString (fun fuel => putChars sink s altflag fuel p precision width out)
      fun found => invariant found.2.state := by
  obtain ⟨bound, outside⟩ := view_bounded s
  induction more : bound - p generalizing p precision width out with
  | zero =>
      refine .round (.of_error (.of_constant fun fuel => ?_) rfl)
      rw [putChars, load_none (outside _ p (by omega)), error_bind]
  | succ more ih =>
      refine .round ?_
      cases read : s.view (sink.memory out.state).image p with
      | none =>
          refine .of_error (.of_constant fun fuel => ?_) rfl
          rw [putChars, load_none read, error_bind]
      | some ch =>
          simp only [putChars, load_ok read, ok_bind]
          by_cases shows : ch ≠ 0 ∧ (precision < 0 ∨ countDown precision ≥ 0)
          · obtain ⟨next, put, one⟩ := keeps.emit before (shown altflag ch).toNat
            simp only [if_pos shows, put, ok_bind]
            exact ih one.state _ _ _ (by omega)
          · simp only [if_neg shows]
            exact .of_returns (.of_constant fun fuel => rfl) before

theorem padString_halts (keeps : Keeps sink image invariant) (before : invariant out.state)
    (s : Object) (escape : Escape) :
    Halts BadString (fun fuel => padString sink s escape fuel out)
      fun found => invariant found.2.state := by
  by_cases isPadded : escape.width > 0 ∧ escape.padc ≠ '-'.toUInt8
  · simp only [padString, if_pos isPadded]
    refine (strnlen_halts _ s _ 0).bind fun length _ => ?_
    obtain ⟨next, put, padded⟩ := keeps.putPad before escape.padc.toNat
      (wrap32 (escape.width - length)).toNat
    simp only [put, ok_bind]
    exact .of_returns (.of_constant fun fuel => rfl) padded.state
  · simp only [padString, if_neg isPadded]
    exact .of_returns (.of_constant fun fuel => rfl) before

theorem putString_halts (keeps : Keeps sink image invariant) (before : invariant out.state)
    (s : Object) (escape : Escape) :
    Halts BadString (fun fuel => putString sink s escape fuel out)
      fun next => invariant next.state := by
  refine (padString_halts keeps before s escape).bind fun padded after => ?_
  refine (putChars_halts keeps after s _ _ _ _).bind fun shown after => ?_
  obtain ⟨next, put, spaces⟩ := keeps.putPad after ' '.toNat shown.1.toNat
  exact .of_returns (.of_constant fun fuel => put) spaces.state

/-! The conversion characters. -/

def isConversion (ch : UInt8) : Bool :=
  ch = 'c'.toUInt8 ∨ ch = 'e'.toUInt8 ∨ ch = 's'.toUInt8 ∨ ch = 'd'.toUInt8 ∨ ch = 'u'.toUInt8 ∨
    ch = 'o'.toUInt8 ∨ ch = 'p'.toUInt8 ∨ ch = 'x'.toUInt8 ∨ ch = '%'.toUInt8

theorem isConversion_iff : isConversion ch = true ↔
    ch = 'c'.toUInt8 ∨ ch = 'e'.toUInt8 ∨ ch = 's'.toUInt8 ∨ ch = 'd'.toUInt8 ∨ ch = 'u'.toUInt8 ∨
      ch = 'o'.toUInt8 ∨ ch = 'p'.toUInt8 ∨ ch = 'x'.toUInt8 ∨ ch = '%'.toUInt8 :=
  decide_eq_true_iff

/-- Only `%%` takes no argument. -/
def argumentsLeft (ch : UInt8) (ap : VaList) : VaList := if ch = '%'.toUInt8 then ap else ap.tail

/-- A string in the field that an escape asks for. -/
def fieldText (escape : Escape) (text : List UInt8) : List UInt8 :=
  let pad := padLeft escape (min text.length (uint64OfInt escape.precision))
  let count := shownLength escape.precision text.length
  pad.1 ++ ((text.take count).map (shown escape.altflag) ++
    List.replicate (wrap32 (pad.2 - count)).toNat ' '.toUInt8)

/-- The characters of a conversion; `text` is the string that its argument points to. -/
def conversionText (ch : UInt8) (escape : Escape) (arg : Arg) (text : List UInt8) : List Int :=
  if ch = 'c'.toUInt8 then [arg.int]
  else if ch = 'e'.toUInt8 then chars (errorMessage (errorCode arg.int))
  else if ch = 's'.toUInt8 then chars (fieldText escape text)
  else if ch = 'd'.toUInt8 then chars (numberText escape 10 (getint arg escape.lflag))
  else if ch = 'u'.toUInt8 then chars (numberText escape 10 (getuint arg escape.lflag))
  else if ch = 'o'.toUInt8 then chars (numberText escape 8 (getuint arg escape.lflag))
  else if ch = 'p'.toUInt8 then chars (bytesOf "0x" ++ numberText escape 16 arg.value)
  else if ch = 'x'.toUInt8 then chars (numberText escape 16 (getuint arg escape.lflag))
  else chars [ch]

/-- All conversions but two print whatever they are given. -/
theorem convert_plain (keeps : Keeps sink image invariant) (before : invariant out.state)
    (text : Object) (escape : Escape) (ap : VaList) (fmt : Nat) (string : List UInt8)
    (conversion : isConversion ch = true) (noError : ch ≠ 'e'.toUInt8) (noString : ch ≠ 's'.toUInt8) :
    ∃ next, Returns (fun fuel => convert sink text (printfmt sink fuel) fuel ch fmt ap escape out)
      (fmt, argumentsLeft ch ap, next) ∧
      Extends invariant out (conversionText ch escape ap.head string) next := by
  have number (conversion : Number) := convert_number text keeps before conversion escape ap fmt
  rcases isConversion_iff.mp conversion with is | is | is | is | is | is | is | is | is
  · obtain ⟨next, put, one⟩ := keeps.emit before ap.head.int
    subst is
    exact ⟨next, .of_constant fun fuel => bind_eq_ok.mpr ⟨next, put, rfl⟩, one⟩
  · exact absurd is noError
  · exact absurd is noString
  · rw [is]
    exact number .d
  · rw [is]
    exact number .u
  · rw [is]
    exact number .o
  · subst is
    obtain ⟨zero, putZero, afterZero⟩ := keeps.emit before '0'.toNat
    obtain ⟨x, putX, afterX⟩ := keeps.emit afterZero.state 'x'.toNat
    obtain ⟨next, returns, digits⟩ := printnum_returns keeps afterX.state (by decide : 1 < 16) le_rfl
      ap.head.value escape.width escape.padc
    have converted (fuel : Nat) :
        convert sink text (printfmt sink fuel) fuel 'p'.toUInt8 fmt ap escape out =
          printnum sink 16 escape.padc.toNat fuel ap.head.value escape.width x >>= fun out =>
            .ok (fmt, ap.tail, out) := by
      change (emit sink '0'.toNat out >>= fun out => emit sink 'x'.toNat out >>= fun out =>
        printnum sink 16 escape.padc.toNat fuel ap.head.value escape.width out >>= fun out =>
          Except.ok (fmt, ap.tail, out)) = _
      rw [putZero, ok_bind, putX, ok_bind]
    simp only [converted]
    refine ⟨next, returns.bind (.of_constant fun fuel => rfl), ?_⟩
    exact afterZero.trans (afterX.trans digits)
  · rw [is]
    exact number .x
  · obtain ⟨next, put, one⟩ := keeps.emit before '%'.toUInt8.toNat
    subst is
    exact ⟨next, .of_constant fun fuel => bind_eq_ok.mpr ⟨next, put, rfl⟩, one⟩

theorem convert_e (printfmt : Object → VaList → Output σ → Except Stop (Output σ)) (fuel : Nat)
    (escape : Escape) : convert sink text printfmt fuel 'e'.toUInt8 fmt ap escape out =
      putError printfmt ap.head.int out >>= fun out => .ok (fmt, ap.tail, out) :=
  rfl

/-- The least `int` is outside of `error_string`. -/
theorem convert_error (keeps : Keeps sink image invariant) (before : invariant out.state)
    (text : Object) (escape : Escape) (ap : VaList) (fmt : Nat) :
    (ap.head.int ≠ -2 ^ 31 → ∃ next, Returns (fun fuel =>
      convert sink text (printfmt sink fuel) fuel 'e'.toUInt8 fmt ap escape out)
        (fmt, ap.tail, next) ∧
        Extends invariant out (chars (errorMessage (errorCode ap.head.int))) next) ∧
    (ap.head.int = -2 ^ 31 → Ends (fun fuel =>
      convert sink text (printfmt sink fuel) fuel 'e'.toUInt8 fmt ap escape out)
        (.error (.panic badIndex))) := by
  have bounds := wrap32_bounds ap.head.int
  rw [wrap32_int] at bounds
  refine ⟨fun other => ?_, fun least => .of_constant fun fuel => ?_⟩
  · obtain ⟨next, returns, after⟩ := putError_returns keeps before (by omega) bounds.2
    simp only [convert_e]
    exact ⟨next, returns.bind (.of_constant fun fuel => rfl), after⟩
  · rw [convert_e, least, putError_least, error_bind]

theorem convert_halts (keeps : Keeps sink image invariant) (before : invariant out.state)
    (text : Object) (escape : Escape) (ap : VaList) (fmt : Nat) (conversion : isConversion ch = true) :
    Halts BadArgument (fun fuel => convert sink text (printfmt sink fuel) fuel ch fmt ap escape out)
      fun found => found.1 = fmt ∧ invariant found.2.2.state := by
  by_cases isError : ch = 'e'.toUInt8
  · subst isError
    obtain ⟨returns, stops⟩ := convert_error keeps before text escape ap fmt
    by_cases least : ap.head.int = -2 ^ 31
    · exact .of_error (stops least) (.inr rfl)
    · obtain ⟨next, returns, message⟩ := returns least
      exact .of_returns returns ⟨rfl, message.state⟩
  · by_cases isString : ch = 's'.toUInt8
    · subst isString
      simp only [convert_s]
      refine ((putString_halts keeps before _ escape).mono fun _ => .inl).bind fun next after => ?_
      exact .of_returns (.of_constant fun fuel => rfl) ⟨rfl, after⟩
    · obtain ⟨next, returns, shown⟩ :=
        convert_plain keeps before text escape ap fmt [] conversion isError isString
      exact .of_returns returns ⟨rfl, shown.state⟩

end Ucore.Libs.Printfmt
