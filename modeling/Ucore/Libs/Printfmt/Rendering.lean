import Ucore.Libs.Printfmt.Bounds

namespace Ucore.Libs.Printfmt

open Ucore.Data Ucore.Mm

/-! The meaning of a format: what `vprintfmt` prints for it, whatever it prints to. -/

/-- The bytes in front of the first zero among so many. -/
def textOf (view : Image) : (size offset : Nat) → List UInt8
  | 0, _ => []
  | size + 1, offset =>
      match view offset with
      | none => []
      | some byte => if byte = 0 then [] else byte :: textOf view size (offset + 1)

def extentOf : Object → Nat
  | .memory _ size => size
  | .constant text => text.length + 1

/-- The string for `%s`. -/
def Conversion.string (image : Image) (conversion : Conversion) : List UInt8 :=
  let s := conversion.arg.pointer.getD (.constant (bytesOf "(null)"))
  textOf (s.view image) (extentOf s) 0

def Conversion.printed (image : Image) (conversion : Conversion) : List Int :=
  conversionText conversion.ch conversion.escape conversion.arg (conversion.string image)

/-- The argument of `%e` is not the least `int`, and that of `%s` is `NULL` or a string with its
terminator. -/
def Conversion.Readable (image : Image) (conversion : Conversion) : Prop :=
  (conversion.ch = 'e'.toUInt8 → conversion.arg.int ≠ -2 ^ 31) ∧
  (conversion.ch = 's'.toUInt8 → ∀ s, conversion.arg.pointer = some s →
    ∃ text, StringAt (s.view image) 0 text)

namespace Place

/-- What is printed when the next character has been read. -/
def shows (image : Image) (ch : UInt8) : Place → List Int
  | text _ => if ch = '%'.toUInt8 then [] else chars [ch]
  | escape ap spec =>
      if isSpec ch then []
      else if isConversion ch then (⟨ch, spec, ap⟩ : Conversion).printed image
      else chars ('%'.toUInt8 :: (spec ++ [ch]))

/-- What is printed if the format ends here. -/
def cut : Place → List Int
  | text _ => []
  | escape _ spec => chars ('%'.toUInt8 :: spec)

end Place

/-- What the rest of a format prints. -/
def rendered (image : Image) : Place → (format : List UInt8) → List Int
  | place, [] => place.cut
  | place, ch :: format => place.shows image ch ++ rendered image (place.next ch) format

/-- Where the rest of a format leads to. -/
def behind (place : Place) (format : List UInt8) : Place :=
  format.foldl (fun place ch => place.next ch) place

variable {σ : Type} {sink : Sink σ} {image view : Image} {invariant : σ → Prop} {out : Output σ}
  {format s : Object} {fmt size offset : Nat} {ap : VaList} {ch : UInt8}
  {bytes spec before tail rest : List UInt8}

/-! Strings. -/

theorem textOf_string (string : StringAt view offset bytes)
    (outside : ∀ place, offset + size ≤ place → view place = none) :
    textOf view size offset = bytes := by
  have isRead := string.head
  induction bytes generalizing offset size with
  | nil =>
      cases size with
      | zero => rfl
      | succ size =>
          rw [textOf, isRead]
          exact if_pos rfl
  | cons byte bytes ih =>
      have isByte : byte ≠ 0 := fun zero => string.noZero (by simp [zero])
      cases size with
      | zero =>
          rw [outside offset le_rfl] at isRead
          cases isRead
      | succ size =>
          rw [List.headD_cons] at isRead
          rw [textOf, isRead]
          refine (if_neg isByte).trans (congrArg (byte :: ·) ?_)
          exact ih string.tail (fun place far => outside place (by omega)) string.tail.head

theorem view_outside (s : Object) (image : Image) (offset : Nat) (far : extentOf s ≤ offset) :
    s.view image offset = none := by
  cases s with
  | memory base size => exact if_neg (Nat.not_lt.mpr far)
  | constant text =>
      rw [Object.view, Image.ofBytes, if_pos (Nat.zero_le _), Nat.sub_zero]
      exact List.getElem?_eq_none (by rw [List.length_append, List.length_singleton]; exact far)

theorem string_eq {conversion : Conversion} (string : StringAt (s.view image) 0 bytes)
    (isArg : conversion.arg.pointer.getD (.constant (bytesOf "(null)")) = s) :
    conversion.string image = bytes := by
  rw [Conversion.string, isArg]
  refine textOf_string string fun place far => view_outside s image place ?_
  rwa [Nat.zero_add] at far

/-- A conversion with a readable argument has a string to print. -/
theorem Conversion.Readable.string {conversion : Conversion} (readable : conversion.Readable image)
    (isString : conversion.ch = 's'.toUInt8) :
    StringAt ((conversion.scan.ap.head.pointer.getD (.constant (bytesOf "(null)"))).view image) 0
      (conversion.string image) := by
  have found {s : Object} {bytes : List UInt8} (string : StringAt (s.view image) 0 bytes)
      (isArg : conversion.scan.ap.head.pointer.getD (.constant (bytesOf "(null)")) = s) :
      StringAt ((conversion.scan.ap.head.pointer.getD (.constant (bytesOf "(null)"))).view image) 0
        (conversion.string image) := by
    rw [string_eq string isArg, isArg]
    exact string
  cases isPointer : conversion.scan.ap.head.pointer with
  | none =>
      rw [isPointer] at found
      exact found (constant_string (by decide : 0 ∉ bytesOf "(null)")) rfl
  | some s =>
      obtain ⟨text, string⟩ := readable.2 isString s isPointer
      rw [isPointer] at found
      exact found string rfl

theorem readable_plain {conversion : Conversion} (noError : conversion.ch ≠ 'e'.toUInt8)
    (noString : conversion.ch ≠ 's'.toUInt8) : conversion.Readable image :=
  ⟨fun same => absurd same noError, fun same => absurd same noString⟩

theorem readable_string {conversion : Conversion} (isString : conversion.ch = 's'.toUInt8)
    (isArg : conversion.arg.pointer = some s) (string : StringAt (s.view image) 0 bytes) :
    conversion.Readable image := by
  refine ⟨fun isError => absurd (isString.symm.trans isError) (by decide), fun _ other isOther => ?_⟩
  cases isArg.symm.trans isOther
  exact ⟨bytes, string⟩

/-! The variables of an escape are of type `int`. -/

theorem arg_isInt (arg : Arg) : IsInt arg.int := by
  have bounds := wrap32_bounds arg.int
  rwa [wrap32_int] at bounds

theorem isInt_absent : IsInt (-1) := ⟨by decide, by decide⟩

theorem isInt_zero : IsInt 0 := ⟨by decide, by decide⟩

structure Scan.Fits (scan : Scan) : Prop where
  width : IsInt scan.escape.width
  precision : IsInt scan.escape.precision
  number : ∀ value, scan.number = some value → IsInt value

namespace Scan.Fits

variable {scan : Scan}

theorem processPrecision {escape : Escape} (width : IsInt escape.width)
    (precision : IsInt escape.precision) :
    IsInt escape.processPrecision.width ∧ IsInt escape.processPrecision.precision := by
  rw [Escape.processPrecision]
  split
  · exact ⟨precision, isInt_absent⟩
  · exact ⟨width, precision⟩

theorem finish (fits : scan.Fits) : IsInt scan.finish.width ∧ IsInt scan.finish.precision := by
  rw [Scan.finish]
  split
  · exact ⟨fits.width, fits.precision⟩
  · rename_i value isNumber
    exact processPrecision fits.width (fits.number value isNumber)

theorem flag {escape : Escape} (width : IsInt escape.width) (precision : IsInt escape.precision)
    (ap : VaList) (ch : UInt8) : (⟨(Scan.flag escape ap ch).1, none, (Scan.flag escape ap ch).2⟩ : Scan).Fits := by
  have unchanged {escape : Escape} {ap : VaList} (width : IsInt escape.width)
      (precision : IsInt escape.precision) : (⟨escape, none, ap⟩ : Scan).Fits :=
    ⟨width, precision, fun _ same => by cases same⟩
  rw [Scan.flag]
  split
  · exact unchanged width precision
  split
  · exact unchanged width precision
  split
  · have argument := arg_isInt ap.head
    generalize ap.head.int = value at argument ⊢
    have star := @processPrecision { escape with precision := value } width argument
    exact unchanged star.1 star.2
  split
  · refine unchanged ?_ ?_
    · split
      · exact isInt_zero
      · exact width
    · split <;> exact precision
  split
  · exact unchanged width precision
  · exact unchanged width precision

theorem step (fits : scan.Fits) (ch : UInt8) : (scan.step ch).Fits := by
  rw [Scan.step]
  split
  · refine ⟨fits.width, fits.precision, fun value isNumber => ?_⟩
    rw [← Option.some.inj isNumber]
    exact wrap32_bounds _
  · exact flag fits.finish.1 fits.finish.2 scan.ap ch

theorem of_spec (ap : VaList) (spec : List UInt8) : (spec.foldl Scan.step (.start ap)).Fits := by
  have start : (Scan.start ap).Fits := ⟨isInt_absent, isInt_absent, fun _ same => by cases same⟩
  generalize Scan.start ap = scan at start
  induction spec generalizing scan with
  | nil => exact start
  | cons ch spec ih => exact ih _ (start.step ch)

end Scan.Fits

/-! What a conversion prints. -/

theorem convert_prints (keeps : Keeps sink image invariant) (before : invariant out.state)
    (format : Object) (conversion : Conversion) (fmt : Nat) (converts : isConversion conversion.ch = true)
    (readable : conversion.Readable image) :
    ∃ next, Returns (fun fuel => convert sink format (printfmt sink fuel) fuel conversion.ch fmt
        conversion.scan.ap conversion.escape out)
          (fmt, argumentsLeft conversion.ch conversion.scan.ap, next) ∧
      Extends invariant out (conversion.printed image) next := by
  by_cases isError : conversion.ch = 'e'.toUInt8
  · have message : conversion.printed image = chars (errorMessage (errorCode conversion.arg.int)) := by
      rw [Conversion.printed, isError]
      rfl
    rw [isError, message]
    exact (convert_error keeps before format conversion.escape conversion.scan.ap fmt).1
      (readable.1 isError)
  · by_cases isString : conversion.ch = 's'.toUInt8
    · have string := readable.string isString
      have fits := (Scan.Fits.of_spec conversion.ap conversion.spec).finish.1
      obtain ⟨next, final, returns, emitted, isFinal⟩ :=
        putString_returns keeps before string conversion.escape
      rw [isFinal fits.1 fits.2] at emitted
      have text : conversion.printed image =
          chars (fieldText conversion.escape (conversion.string image)) := by
        rw [Conversion.printed, isString]
        rfl
      rw [isString, text]
      simp only [convert_s]
      exact ⟨next, returns.bind (.of_constant fun fuel => rfl), emitted⟩
    · exact convert_plain keeps before format conversion.escape conversion.scan.ap fmt _ converts isError
        isString

/-! What a format prints, by its induction. -/

theorem rendered_plain (plain : '%'.toUInt8 ∉ bytes) :
    rendered image (.text ap) (bytes ++ rest) = chars bytes ++ rendered image (.text ap) rest := by
  induction bytes with
  | nil => rfl
  | cons ch bytes ih =>
      have other : ch ≠ '%'.toUInt8 := fun same => plain (by simp [same])
      rw [List.cons_append, rendered, Place.shows, Place.next, if_neg other, if_neg other,
        ih fun member => plain (List.mem_cons_of_mem _ member), ← List.append_assoc, ← chars_append]
      rfl

theorem rendered_spec (all : ∀ ch ∈ spec, isSpec ch = true) :
    rendered image (.escape ap before) (spec ++ rest) =
      rendered image (.escape ap (before ++ spec)) rest := by
  induction spec generalizing before with
  | nil => rw [List.nil_append, List.append_nil]
  | cons ch spec ih =>
      have isMember := all ch (by simp)
      rw [List.cons_append, rendered, Place.shows, Place.next, if_pos isMember, if_pos isMember,
        List.nil_append, ih fun ch member => all ch (List.mem_cons_of_mem _ member), List.append_assoc]
      rfl

theorem rendered_escape (all : ∀ ch ∈ spec, isSpec ch = true) :
    rendered image (.text ap) ('%'.toUInt8 :: (spec ++ rest)) =
      rendered image (.escape ap spec) rest := by
  rw [rendered, Place.shows, Place.next, if_pos rfl, if_pos rfl, List.nil_append, rendered_spec all,
    List.nil_append]

theorem rendered_converted (all : ∀ ch ∈ spec, isSpec ch = true) (stops : isSpec ch ≠ true)
    (conversion : isConversion ch = true) :
    rendered image (.text ap) ('%'.toUInt8 :: (spec ++ ch :: tail)) =
      Conversion.printed image ⟨ch, spec, ap⟩ ++
        rendered image (.text (argumentsLeft ch (spec.foldl Scan.step (.start ap)).ap)) tail := by
  rw [rendered_escape all, rendered, Place.shows, Place.next]
  simp only [if_neg stops, if_pos conversion]

/-- Of an escape that is not recognized the `%` is printed, and the rest is text. -/
theorem rendered_rejected (all : ∀ ch ∈ spec, isSpec ch = true)
    (stops : isSpec (tail.headD 0) ≠ true) (other : isConversion (tail.headD 0) ≠ true) :
    rendered image (.text ap) ('%'.toUInt8 :: (spec ++ tail)) = chars ['%'.toUInt8] ++
      rendered image (.text (ap.drop (spec.count '*'.toUInt8))) (spec ++ tail) := by
  rw [rendered_escape all, rendered_plain (percent_notMem all), ← List.append_assoc, ← chars_append]
  cases tail with
  | nil => rw [rendered, rendered, Place.cut, Place.cut, List.append_nil]; rfl
  | cons ch tail =>
      rw [List.headD_cons] at stops other
      have plain : ch ≠ '%'.toUInt8 := percent_not_plain other
      rw [rendered, rendered, Place.shows, Place.next, Place.shows, Place.next, if_neg plain, if_neg plain]
      simp only [if_neg stops, if_neg other]
      rw [scan_arguments, ← List.append_assoc, ← chars_append, List.append_assoc]
      rfl

theorem vprintfmtLoop_prints {rest : List UInt8} {fmt : Nat} {out : Output σ}
    (keeps : Keeps sink image invariant) (before : invariant out.state)
    (string : StringAt (format.view image) fmt rest) (ap : VaList)
    (readable : ∀ conversion ∈ conversions rest (.text ap), conversion.Readable image) :
    ∃ next, Returns (fun fuel => vprintfmtLoop sink fuel format fmt ap out) next ∧
      Extends invariant out (rendered image (.text ap) rest) next := by
  induction rest using format_induction generalizing fmt out ap with
  | done => exact ⟨out, round_end keeps before string ap, .refl before⟩
  | literal ch rest plain ih =>
      obtain ⟨middle, one, ends⟩ := round_literal keeps before string plain
      rw [conversions, Place.makes, Place.next, if_neg plain, List.nil_append] at readable
      obtain ⟨next, returns, others⟩ := ih one.state string.tail ap readable
      refine ⟨next, ends ap _ returns, ?_⟩
      rw [← List.singleton_append, rendered_plain (by simpa using Ne.symm plain)]
      exact one.trans others
  | escape spec ch tail all stops conversion ih =>
      rw [conversions_converted all stops conversion, List.forall_mem_cons] at readable
      obtain ⟨middle, converts, printed⟩ := convert_prints keeps before format ⟨ch, spec, ap⟩
        (fmt + 1 + spec.length + 1) conversion readable.1
      obtain ⟨next, returns, others⟩ := ih printed.state string.tail.skip.tail _ readable.2
      refine ⟨next, round_converts keeps before string all stops converts returns, ?_⟩
      rw [rendered_converted all stops conversion]
      exact printed.trans others
  | rejected spec tail all stops other ih =>
      obtain ⟨middle, escape, one⟩ := escape_rejected keeps before string all stops other ap
      rw [conversions_rejected all stops other] at readable
      obtain ⟨next, returns, others⟩ := ih one.state string.tail _ readable
      refine ⟨next, round_escape keeps before string escape returns, ?_⟩
      rw [rendered_rejected all stops other]
      exact one.trans others

/-- The output is the meaning of the format. -/
theorem vprintfmt_renders (keeps : Keeps sink image invariant) (before : invariant out.state)
    (string : StringAt (format.view image) 0 bytes) (ap : VaList)
    (readable : ∀ conversion ∈ conversions bytes (.text ap), conversion.Readable image) :
    ∃ next, Returns (vprintfmt sink format ap out) next ∧ invariant next.state ∧
      next.emitted = out.emitted ++ rendered image (.text ap) bytes := by
  obtain ⟨next, returns, printed⟩ := vprintfmtLoop_prints keeps before string ap readable
  exact ⟨next, returns, printed.state, printed.emitted⟩

/-- An `int` and then a string. -/
def twoArgs : VaList := Stream'.cons (intArg (-42)) (oneArg (stringArg (bytesOf "hello")))

theorem twoArgs_readable : ∀ conversion ∈ conversions (bytesOf "%d%% %-8.3s|") (.text twoArgs),
    conversion.Readable (stringMemory (bytesOf "hello") (by decide)).image := by
  have made : conversions (bytesOf "%d%% %-8.3s|") (.text twoArgs) =
      [⟨'d'.toUInt8, [], twoArgs⟩, ⟨'%'.toUInt8, [], twoArgs.tail⟩,
        ⟨'s'.toUInt8, bytesOf "-8.3", twoArgs.tail⟩] := rfl
  have string := stringArg_string (bytesOf "hello") (by decide) (by decide)
  rw [made, List.forall_mem_cons, List.forall_mem_cons, List.forall_mem_singleton]
  exact ⟨readable_plain (by decide) (by decide), readable_plain (by decide) (by decide),
    readable_string rfl rfl string⟩

/-- The string is longer than its precision. -/
theorem vprintfmt_renders_line : ∃ next, Returns (vprintfmt cputch
    (.constant (bytesOf "%d%% %-8.3s|")) twoArgs (console (bytesOf "hello") (by decide))) next ∧
    next.emitted = chars (bytesOf "-42% hel     |") := by
  have shows : rendered (stringMemory (bytesOf "hello") (by decide)).image (.text twoArgs)
      (bytesOf "%d%% %-8.3s|") = chars (bytesOf "-42% hel     |") := by decide +kernel
  obtain ⟨next, returns, _, emitted⟩ := vprintfmt_renders
    (cputch_keeps (stringMemory (bytesOf "hello") (by decide)))
    (rfl : (console (bytesOf "hello") (by decide)).state.memory = _)
    (constant_string (by decide : 0 ∉ bytesOf "%d%% %-8.3s|")) twoArgs twoArgs_readable
  rw [shows] at emitted
  exact ⟨next, returns, emitted⟩

end Ucore.Libs.Printfmt
