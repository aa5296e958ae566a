import Ucore.Libs.Printfmt.Composition
import Ucore.Libs.Printfmt.Truncation
import Ucore.Libs.Readline

namespace Ucore.Libs.Stdio

open Ucore.Data Ucore.Mm Ucore.Libs.Printfmt

/-! `cputs` of `kern/libs/stdio.c`, and `kern/debug/panic.c`. -/

/-- The loop of `cputs`, with the line feed behind it. -/
def cputsLoop (memory : KernelMemory) : Nat → (str : Nat) → Output Console → Except Stop (Output Console)
  | 0, _, _ => .error .outOfFuel
  | fuel + 1, str, out => do
      let c ← loadByte memory str
      if c ≠ 0 then do
        let out ← emit cputch c.toNat out
        cputsLoop memory fuel (uint64 (str + 1)) out
      else
        emit cputch '\n'.toNat out

/-- The number of characters, and what the console shows then. -/
def cputs (memory : KernelMemory) (str : Nat) (shown : List Int) : Bounded (Int × List Int) :=
  fun fuel => do
    let out ← cputsLoop memory fuel str ⟨{ memory, cnt := 0 }, shown⟩
    .ok (out.state.cnt, out.emitted)

/-- The three calls of `cprintf` in `__panic` and `__warn`. -/
def report (memory : KernelMemory) (begins : List UInt8) (file : Arg) (line : Int) (fmt : Object)
    (ap : VaList) (shown : List Int) : Bounded (List Int) := fun fuel => do
  let (_, shown) ← cprintf memory (.constant begins) (Stream'.cons file (oneArg (intArg line))) shown fuel
  let (_, shown) ← cprintf memory fmt ap shown fuel
  let (_, shown) ← cprintf memory (.constant (bytesOf "\n")) ap shown fuel
  .ok shown

/-- `__warn`. -/
def warn (memory : KernelMemory) (file : Arg) (line : Int) (fmt : Object) (ap : VaList)
    (shown : List Int) : Bounded (List Int) :=
  report memory (bytesOf "kernel warning at %s:%d:\n    ") file line fmt ap shown

/-- `__panic` up to `panic_dead`, where it stays: `is_panic` and what the console shows there. -/
def panic (memory : KernelMemory) (file : Arg) (line : Int) (fmt : Object) (ap : VaList)
    (is_panic : Bool) (shown : List Int) : Bounded (Bool × List Int) := fun fuel =>
  if is_panic then
    .ok (is_panic, shown)
  else do
    let shown ← report memory (bytesOf "kernel panic at %s:%d:\n    ") file line fmt ap shown fuel
    .ok (true, shown)

variable {memory : KernelMemory} {image : Image} {format : Object} {ap : VaList}
  {bytes text begins : List UInt8} {shown : List Int} {out next : Output Console}
  {str size : Nat} {file : Arg} {line : Int}

/-! The console counts what it is given. -/

theorem cputch_counts {console final : Console} {count : Nat}
    (steps : shown.foldlM (fun console ch => cputch.putch ch console) console = .ok final)
    (counted : console.cnt = wrap32 count) :
    final.cnt = wrap32 ((count + shown.length : Nat) : Int) := by
  induction shown generalizing console count with
  | nil =>
      cases steps
      exact counted
  | cons ch shown ih =>
      rw [List.foldlM_cons] at steps
      obtain ⟨middle, stepped, steps⟩ := bind_eq_ok.mp steps
      cases stepped
      have one : wrap32 (console.cnt + 1) = wrap32 ((count + 1 : Nat) : Int) := by
        rw [counted, wrap32_wrap32_add, Nat.cast_succ]
      rw [ih steps one, List.length_cons, Nat.add_right_comm, Nat.add_assoc]

theorem cprintf_prints (le : image.Le memory.image) (string : StringAt (format.view image) 0 bytes)
    (ap : VaList) (readable : ∀ conversion ∈ conversions bytes (.text ap), conversion.Readable image)
    (shown : List Int) :
    Returns (cprintf memory format ap shown)
      (wrap32 (rendered image (.text ap) bytes).length, shown ++ rendered image (.text ap) bytes) := by
  have keeps : Keeps cputch image fun console => console.memory = memory := {
    reads := fun console same => by
      rw [← same] at le
      exact le
    putch := (cputch_keeps memory).putch }
  have before : (Output.mk { memory, cnt := 0 } shown : Output Console).state.memory = memory := rfl
  obtain ⟨next, returns, _, emitted⟩ := vprintfmt_renders keeps before string ap readable
  obtain ⟨more, puts⟩ := vprintfmt_puts returns
  have counted := cputch_counts puts.2 (by decide : (0 : Int) = wrap32 (0 : Nat))
  obtain rfl : more = rendered image (.text ap) bytes :=
    List.append_cancel_left (puts.1.symm.trans emitted)
  rw [Nat.zero_add] at counted
  refine returns.bind (.of_constant fun fuel => ?_)
  rw [counted, emitted]

/-- The console and a buffer get the same text, as far as the buffer goes, and the same count. -/
theorem cprintf_vsnprintf (memory : KernelMemory) (shown : List Int) (room : 1 ≤ size)
    (mapped : ∀ address, str ≤ address → address < str + size → memory.image address ≠ none)
    (string : StringAt (format.view (memory.image.outside str size)) 0 bytes) (ap : VaList)
    (readable : ∀ conversion ∈ conversions bytes (.text ap),
      conversion.Readable (memory.image.outside str size))
    (short : (rendered (memory.image.outside str size) (.text ap) bytes).length < 2 ^ 31) :
    ∃ printed after, printed = rendered (memory.image.outside str size) (.text ap) bytes ∧
      Returns (cprintf memory format ap shown) (printed.length, shown ++ printed) ∧
      Returns (vsnprintf memory str size format ap) (printed.length, after) ∧
      after.image.Holds str ((printed.take (size - 1)).map UInt8.ofInt ++ [0]) ∧
      ∀ address, address < str ∨ str + size ≤ address → after.image address = memory.image address := by
  have onConsole := cprintf_prints (Image.outside_le memory.image str size) string ap readable shown
  rw [wrap32_of_fits (by omega) (by omega)] at onConsole
  obtain ⟨low, inside⟩ := buffer_bounds room mapped
  have filled := Filled.start room inside mapped
  have notNull : str ≠ 0 := by
    simp only [mappedBase] at low
    omega
  have begins : ∃ emitted, Filled memory str size
      ⟨(Output.start { memory, b := sprintbuf str size } : Output Buffer).state, emitted⟩ := ⟨[], filled⟩
  obtain ⟨out, returns, _, emitted⟩ :=
    vprintfmt_renders (Filled.keeps_outside room inside) begins string ap readable
  rw [Output.start, List.nil_append] at emitted
  obtain ⟨after, result, holds, frame⟩ := (vsnprintf_truncates memory str size format ap (by omega)).2 out
    notNull room inside mapped returns (emitted ▸ short)
  rw [emitted] at result holds
  exact ⟨_, after, rfl, onConsole, result, holds, frame⟩

/-- Three of five characters and the terminator fill four bytes. -/
theorem cprintf_vsnprintf_five : ∃ after,
    Returns (cprintf (stringMemory (bytesOf "buf") (by decide)) (.constant (bytesOf "%5d"))
      (oneArg (intArg 42)) []) (5, chars (bytesOf "   42")) ∧
    Returns (vsnprintf (stringMemory (bytesOf "buf") (by decide)) stringAddress 4
      (.constant (bytesOf "%5d")) (oneArg (intArg 42))) (5, after) ∧
    after.image.Holds stringAddress (bytesOf "   " ++ [0]) := by
  have shows : rendered ((stringMemory (bytesOf "buf") (by decide)).image.outside stringAddress 4)
      (.text (oneArg (intArg 42))) (bytesOf "%5d") = chars (bytesOf "   42") := by decide +kernel
  have made : conversions (bytesOf "%5d") (.text (oneArg (intArg 42))) =
      [⟨'d'.toUInt8, bytesOf "5", oneArg (intArg 42)⟩] := rfl
  have mapped (address : Nat) (low : stringAddress ≤ address) (high : address < stringAddress + 4) :
      (stringMemory (bytesOf "buf") (by decide)).image address ≠ none :=
    (Image.ofBytes_holds stringAddress (bytesOf "buf" ++ [0])).readable low high
  have readable (image : Image) : ∀ conversion ∈ conversions (bytesOf "%5d") (.text (oneArg (intArg 42))),
      conversion.Readable image := by
    rw [made, List.forall_mem_singleton]
    exact readable_plain (by decide) (by decide)
  obtain ⟨printed, after, isPrinted, onConsole, inBuffer, holds, _⟩ := cprintf_vsnprintf
    (stringMemory (bytesOf "buf") (by decide)) [] (by decide : 1 ≤ 4) mapped (constant_string (by decide : 0 ∉ bytesOf "%5d"))
    (oneArg (intArg 42)) (readable _) (by rw [shows]; decide)
  rw [isPrinted, shows] at onConsole inBuffer holds
  exact ⟨after, onConsole, inBuffer, holds⟩

/-! `cputs`. -/

theorem cputsLoop_puts (string : StringAt memory.image str bytes)
    (inMemory : out.state.memory = memory) :
    ∃ next, Returns (fun fuel => cputsLoop memory fuel str out) next ∧
      Puts cputch out (chars (bytes ++ ['\n'.toUInt8])) next := by
  induction bytes generalizing str out with
  | nil =>
      obtain ⟨next, put, one⟩ := (cputch_keeps memory).emit inMemory '\n'.toNat
      refine ⟨next, .round (.of_constant fun fuel => ?_), emit_puts put⟩
      rw [cputsLoop, loadByte_ok.mpr string.holds.1, ok_bind, if_neg (by simp), put]
  | cons c bytes ih =>
      have isChar : c ≠ 0 := fun zero => string.noZero (by simp [zero])
      obtain ⟨middle, put, one⟩ := (cputch_keeps memory).emit inMemory c.toNat
      obtain ⟨next, returns, others⟩ := ih string.uint64 one.state
      refine ⟨next, .round ?_, (emit_puts put).trans others⟩
      simp only [cputsLoop, loadByte_ok.mpr string.holds.1, ok_bind, if_pos isChar, put]
      exact returns

theorem fieldText_plain (short : text.length < 2 ^ 30) : fieldText {} text = text := by
  have all : shownLength (-1) text.length = text.length := if_pos (by decide)
  have none : (wrap32 (-1 - text.length)).toNat = 0 := by
    rw [wrap32_of_fits (by omega) (by omega)]
    omega
  have left : padLeft {} (min text.length (uint64OfInt (-1))) = ([], -1) := if_neg (by simp)
  simp only [fieldText, left, all, none, List.take_length, List.replicate_zero, List.append_nil,
    List.nil_append]
  exact List.map_id _

theorem numberText_plain (fits : IsInt line) :
    numberText {} 10 line = signText line ++ numeralText 10 line.natAbs := by
  obtain ⟨low, high⟩ := fits
  obtain ⟨some, few⟩ := numeralText_length (by decide : 1 < 10) (by omega : line.natAbs < 2 ^ 64)
  have none : padCount ((numeralText 10 line.natAbs).length - 1) (-1) = 0 := by
    rw [padCount_room some few (by decide) (.inr ⟨rfl, rfl⟩), Nat.zero_sub]
  simp only [numberText, padDigits, none, List.replicate_zero, List.nil_append]

theorem rendered_s {s : Object} (string : StringAt (s.view image) 0 text)
    (isArg : ap.head.pointer = some s) (short : text.length < 2 ^ 30) :
    rendered image (.text ap) ('%'.toUInt8 :: 's'.toUInt8 :: bytes) =
      chars text ++ rendered image (.text ap.tail) bytes := by
  have isPointer : ap.head.pointer.getD (.constant (bytesOf "(null)")) = s := by
    rw [isArg, Option.getD_some]
  have whole : Conversion.string image ⟨'s'.toUInt8, [], ap⟩ = text := string_eq string isPointer
  have shows : rendered image (.text ap) ('%'.toUInt8 :: 's'.toUInt8 :: bytes) =
      chars (fieldText {} (Conversion.string image ⟨'s'.toUInt8, [], ap⟩)) ++
        rendered image (.text ap.tail) bytes := rfl
  rw [shows, whole, fieldText_plain short]

theorem rendered_d (fits : IsInt line) (isArg : ap.head = intArg line) :
    rendered image (.text ap) ('%'.toUInt8 :: 'd'.toUInt8 :: bytes) =
      chars (signText line ++ numeralText 10 line.natAbs) ++ rendered image (.text ap.tail) bytes := by
  have shows : rendered image (.text ap) ('%'.toUInt8 :: ([] ++ 'd'.toUInt8 :: bytes)) =
      Conversion.printed image ⟨'d'.toUInt8, [], ap⟩ ++ rendered image (.text ap.tail) bytes :=
    rendered_converted (List.forall_mem_nil _) (by decide) (by decide)
  rw [List.nil_append] at shows
  have value : getint ap.head 0 = line := by
    rw [isArg, getint, if_neg (by decide), if_neg (by decide), intArg_int fits.1 fits.2]
  have prints (string : List UInt8) : conversionText 'd'.toUInt8 {} ap.head string =
      chars (numberText {} 10 (getint ap.head 0)) := by
    rw [conversionText, if_neg (by decide), if_neg (by decide), if_neg (by decide), if_pos rfl]
  have printed : Conversion.printed image ⟨'d'.toUInt8, [], ap⟩ =
      conversionText 'd'.toUInt8 {} ap.head (Conversion.string image ⟨'d'.toUInt8, [], ap⟩) := rfl
  rw [shows, printed, prints, value, numberText_plain fits]

/-- `cputs(s)` is `cprintf("%s\n", s)`. -/
theorem cputs_cprintf (string : StringAt memory.image str bytes) (isAddress : str < 2 ^ 64) (shown : List Int) :
    Returns (cputs memory str shown)
      (bytes.length + 1, shown ++ chars (bytes ++ ['\n'.toUInt8])) ∧
    Returns (cprintf memory (.constant (bytesOf "%s\n"))
      (oneArg (.word (UInt64.ofNat str) (bytes.length + 1))) shown)
      (bytes.length + 1, shown ++ chars (bytes ++ ['\n'.toUInt8])) := by
  have short := string.length_lt
  have count : wrap32 (bytes.length + 1 : Nat) = bytes.length + 1 :=
    wrap32_of_fits (by omega) (by omega)
  have pointer : (UInt64.ofNat str).toNat = str := UInt64.toNat_ofNat_of_lt' isAddress
  have notNull : UInt64.ofNat str ≠ 0 := by
    intro isNull
    have zero := congrArg UInt64.toNat isNull
    rw [pointer] at zero
    have bounds := (memory.mapped str (by rw [string.head]; exact Option.some_ne_none _)).1
    rw [zero] at bounds
    exact absurd bounds (by decide)
  constructor
  · have before : (Output.mk { memory, cnt := 0 } shown : Output Console).state.memory = memory := rfl
    obtain ⟨next, returns, puts⟩ := cputsLoop_puts string before
    have counted := cputch_counts puts.2 (by decide : (0 : Int) = wrap32 (0 : Nat))
    rw [chars_length, List.length_append, List.length_singleton, Nat.zero_add, count] at counted
    refine returns.bind (.of_constant fun fuel => ?_)
    rw [counted, puts.1]
  · have argument : StringAt ((Object.memory (UInt64.ofNat str).toNat (bytes.length + 1)).view memory.image)
        0 bytes := memory_string (pointer.symm ▸ string) (Nat.lt_succ_self _)
    have made : conversions (bytesOf "%s\n")
        (.text (oneArg (.word (UInt64.ofNat str) (bytes.length + 1)))) =
      [⟨'s'.toUInt8, [], oneArg (.word (UInt64.ofNat str) (bytes.length + 1))⟩] := rfl
    have isPointer : (Arg.word (UInt64.ofNat str) (bytes.length + 1)).pointer =
        some (.memory (UInt64.ofNat str).toNat (bytes.length + 1)) := if_neg notNull
    have prints := cprintf_prints (fun _ _ read => read) (constant_string (by decide : 0 ∉ bytesOf "%s\n"))
      (oneArg (.word (UInt64.ofNat str) (bytes.length + 1)))
      (by
        rw [made, List.forall_mem_singleton]
        exact readable_string rfl isPointer argument)
      shown
    have text : rendered memory.image (.text (oneArg (.word (UInt64.ofNat str) (bytes.length + 1))))
        (bytesOf "%s\n") = chars (bytes ++ ['\n'.toUInt8]) := by
      rw [chars_append]
      exact rendered_s argument (if_neg notNull) short
    rw [text, chars_length, List.length_append, List.length_singleton, count] at prints
    exact prints

theorem cputs_cprintf_hi :
    Returns (cputs (stringMemory (bytesOf "hi") (by decide)) stringAddress []) (3, chars (bytesOf "hi\n")) ∧
    Returns (cprintf (stringMemory (bytesOf "hi") (by decide)) (.constant (bytesOf "%s\n"))
      (oneArg (stringArg (bytesOf "hi"))) []) (3, chars (bytesOf "hi\n")) :=
  cputs_cprintf (stringMemory_string (bytesOf "hi") (by decide) (by decide)) (by decide) []

/-! `__panic` and `__warn`. -/

theorem report_prints {title name : List UInt8} (plain : '%'.toUInt8 ∉ title) (noZero : 0 ∉ title)
    {value : UInt64} (notNull : value ≠ 0)
    (file : StringAt ((Object.memory value.toNat (name.length + 1)).view memory.image) 0 name)
    (fits : IsInt line) (string : StringAt (format.view memory.image) 0 bytes)
    (readable : ∀ conversion ∈ conversions bytes (.text ap), conversion.Readable memory.image)
    (shown : List Int) :
    Returns (report memory (title ++ bytesOf "%s:%d:\n    ") (.word value (name.length + 1)) line format
        ap shown)
      (shown ++ chars (title ++ name ++ bytesOf ":" ++ (signText line ++ numeralText 10 line.natAbs) ++
        bytesOf ":\n    ") ++ rendered memory.image (.text ap) bytes ++ chars (bytesOf "\n")) := by
  have le : memory.image.Le memory.image := fun _ _ read => read
  have short := memory_string_lt le file
  have isFile : (Stream'.cons (Arg.word value (name.length + 1)) (oneArg (intArg line))).head =
      .word value (name.length + 1) := rfl
  generalize isArgs : Stream'.cons (Arg.word value (name.length + 1)) (oneArg (intArg line)) = args at isFile
  have isLine : args.tail.head = intArg line := by
    rw [← isArgs]
    rfl
  have isPointer : args.head.pointer = some (.memory value.toNat (name.length + 1)) := by
    rw [isFile, Arg.pointer, if_neg notNull]
  have made : conversions (title ++ bytesOf "%s:%d:\n    ") (.text args) =
      [⟨'s'.toUInt8, [], args⟩, ⟨'d'.toUInt8, [], args.tail⟩] := by
    rw [conversions_plain plain]
    rfl
  have text : rendered memory.image (.text args) (title ++ bytesOf "%s:%d:\n    ") =
      chars (title ++ name ++ bytesOf ":" ++ (signText line ++ numeralText 10 line.natAbs) ++
        bytesOf ":\n    ") := by
    have first : rendered memory.image (.text args) (bytesOf "%s:%d:\n    ") =
        chars name ++ rendered memory.image (.text args.tail) (bytesOf ":%d:\n    ") :=
      rendered_s file isPointer short
    have second : rendered memory.image (.text args.tail) (bytesOf "%d:\n    ") =
        chars (signText line ++ numeralText 10 line.natAbs) ++
          rendered memory.image (.text args.tail.tail) (bytesOf ":\n    ") :=
      rendered_d fits isLine
    have between : rendered memory.image (.text args.tail) (bytesOf ":%d:\n    ") =
        chars (bytesOf ":") ++ rendered memory.image (.text args.tail) (bytesOf "%d:\n    ") :=
      rendered_plain (by decide : '%'.toUInt8 ∉ bytesOf ":")
    have last : rendered memory.image (.text args.tail.tail) (bytesOf ":\n    ") =
        chars (bytesOf ":\n    ") := rfl
    rw [rendered_plain plain, first, between, second, last]
    simp only [chars_append, List.append_assoc]
  have header : 0 ∉ title ++ bytesOf "%s:%d:\n    " := fun member =>
    (List.mem_append.mp member).elim noZero (by decide)
  have begins := cprintf_prints le (constant_string header) args
    (by
      rw [made, List.forall_mem_cons, List.forall_mem_singleton]
      exact ⟨readable_string rfl isPointer file, readable_plain
        (show 'd'.toUInt8 ≠ 'e'.toUInt8 by decide) (show 'd'.toUInt8 ≠ 's'.toUInt8 by decide)⟩)
    shown
  have onward := cprintf_prints le string ap readable (shown ++ rendered memory.image (.text args)
    (title ++ bytesOf "%s:%d:\n    "))
  have ends (shown : List Int) := cprintf_prints le (constant_string (by decide : 0 ∉ bytesOf "\n")) ap
    (fun _ member => by cases member) shown
  rw [text] at begins onward
  unfold report
  simp only [isArgs]
  exact begins.bind (onward.bind ((ends _).bind (.of_constant fun fuel => rfl)))

/-- The first panic reports its place and its message, and no later one reports anything. -/
theorem panic_prints {name : List UInt8} {value : UInt64} (notNull : value ≠ 0)
    (file : StringAt ((Object.memory value.toNat (name.length + 1)).view memory.image) 0 name)
    (fits : IsInt line) (string : StringAt (format.view memory.image) 0 bytes)
    (readable : ∀ conversion ∈ conversions bytes (.text ap), conversion.Readable memory.image)
    (shown : List Int) :
    ∃ told, Returns (panic memory (.word value (name.length + 1)) line format ap false shown) (true, told) ∧
      told = shown ++ chars (bytesOf "kernel panic at " ++ name ++ bytesOf ":" ++
        (signText line ++ numeralText 10 line.natAbs) ++ bytesOf ":\n    ") ++
          rendered memory.image (.text ap) bytes ++ chars (bytesOf "\n") ∧
      ∀ file line format ap, Returns (panic memory file line format ap true told) (true, told) := by
  have told := report_prints (by decide : '%'.toUInt8 ∉ bytesOf "kernel panic at ") (by decide) notNull file
    fits string readable shown
  refine ⟨_, told.bind (.of_constant fun fuel => rfl), rfl, fun _ _ _ _ => ?_⟩
  exact .of_constant fun fuel => rfl

/-- Four characters of the file name are the end of the message. -/
theorem panic_prints_init : Returns (panic (stringMemory (bytesOf "init.c") (by decide))
    (stringArg (bytesOf "init.c")) 27 (.constant (bytesOf "no %.4s")) (oneArg (stringArg (bytesOf "init.c")))
      false []) (true, chars (bytesOf "kernel panic at init.c:27:\n    no init\n")) := by
  have string := stringArg_string (bytesOf "init.c") (by decide) (by decide)
  have made : conversions (bytesOf "no %.4s") (.text (oneArg (stringArg (bytesOf "init.c")))) =
      [⟨'s'.toUInt8, bytesOf ".4", oneArg (stringArg (bytesOf "init.c"))⟩] := rfl
  have readable : ∀ conversion ∈ conversions (bytesOf "no %.4s") (.text (oneArg (stringArg (bytesOf "init.c")))),
      conversion.Readable (stringMemory (bytesOf "init.c") (by decide)).image := by
    rw [made, List.forall_mem_singleton]
    exact readable_string rfl rfl string
  obtain ⟨told, reports, isTold, _⟩ := panic_prints (by decide) string
    (⟨by decide, by decide⟩ : IsInt 27) (constant_string (by decide : 0 ∉ bytesOf "no %.4s")) readable []
  have text : told = chars (bytesOf "kernel panic at init.c:27:\n    no init\n") := by
    rw [isTold]
    decide +kernel
  exact text ▸ reports

end Ucore.Libs.Stdio
