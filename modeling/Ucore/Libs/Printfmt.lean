import Ucore.Libs.String
import Ucore.Mm.Memlayout
import Mathlib.Data.Stream.Defs

namespace Ucore.Libs

open Ucore.Data Ucore.Mm

/-! `libs/printfmt.c`, and `strnlen` of `libs/string.c`. -/

/-- The result of an operation on `int`, which wraps around. -/
def wrap32 (value : Int) : Int := Int.bmod value 0x100000000

/-- What a pointer points into: bytes of memory, or a string constant of the kernel.
The constant is given without its terminator. -/
inductive Object where
  | memory (base size : Nat)
  | constant (text : List UInt8)

/-- The bytes of the object, from its beginning on. -/
def Object.view (image : Image) : Object → Image
  | .memory base size => fun offset => if offset < size then image (base + offset) else none
  | .constant text => Image.ofBytes 0 (text ++ [0])

def load (memory : KernelMemory) (object : Object) (offset : Nat) (fault : String) : Except Stop UInt8 :=
  match object.view memory.image offset with
  | some byte => .ok byte
  | none => .error (.panic fault)

def badFormat : String := "read outside the format"

def badString : String := "read outside the string"

/-- A byte of the format; `fmt` is the offset in it. -/
def fetch (memory : KernelMemory) (text : Object) (fmt : Nat) : Except Stop UInt8 :=
  load memory text fmt badFormat

/-- The string is the object, from its beginning on, and `cnt` is also how far `s` is. -/
def strnlen (memory : KernelMemory) (s : Object) (len : Nat) : Nat → (cnt : Nat) → Except Stop Nat
  | 0, _ => .error .outOfFuel
  | fuel + 1, cnt =>
      if cnt < len then do
        let byte ← load memory s cnt badString
        if byte ≠ 0 then strnlen memory s len fuel (cnt + 1) else .ok cnt
      else
        .ok cnt

/-! The arguments. -/

/-- What `va_arg` finds: a word, with the number of bytes that may be read through it if it is a
pointer, or a pointer to a constant. -/
inductive Arg where
  | word (value : UInt64) (extent : Nat)
  | constant (text : List UInt8)

/-- Constants are passed for `%s` only. -/
def Arg.value : Arg → Nat
  | .word value _ => value.toNat
  | .constant _ => 0

/-- `none` is `NULL`. -/
def Arg.pointer : Arg → Option Object
  | .word value extent => if value = 0 then none else some (.memory value.toNat extent)
  | .constant text => some (.constant text)

/-- `va_arg(ap, int)`. -/
def Arg.int (arg : Arg) : Int := int32 arg.value

abbrev VaList := Stream' Arg

/-- The arguments of a call of `printfmt`. -/
def oneArg (arg : Arg) : VaList := Stream'.const arg

def intArg (value : Int) : Arg := .word (UInt64.ofNat (uint64OfInt value)) 0

def getuint (arg : Arg) (lflag : Nat) : Nat :=
  if lflag ≥ 2 then arg.value
  else if lflag ≠ 0 then arg.value
  else uint32 arg.value

def getint (arg : Arg) (lflag : Nat) : Int :=
  if lflag ≥ 2 then int64 arg.value
  else if lflag ≠ 0 then int64 arg.value
  else arg.int

/-! The output. -/

/-- `putch`, with what is behind `putdat` and the memory as its state. -/
structure Sink (σ : Type) where
  memory : σ → KernelMemory
  putch : (ch : Int) → σ → Except Stop σ

/-- The state of the sink, and the characters it was given so far. -/
structure Output (σ : Type) where
  state : σ
  emitted : List Int

variable {σ : Type}

def Output.start (state : σ) : Output σ := ⟨state, []⟩

def emit (sink : Sink σ) (ch : Int) (out : Output σ) : Except Stop (Output σ) := do
  let state ← sink.putch ch out.state
  .ok { state, emitted := out.emitted ++ [ch] }

/-- `for (; width > 0; width --) putch(padc, putdat)`. -/
def putPad (sink : Sink σ) (padc : Int) : (width : Nat) → Output σ → Except Stop (Output σ)
  | 0, out => .ok out
  | width + 1, out => do
      let out ← emit sink padc out
      putPad sink padc width out

def printnum (sink : Sink σ) (base : Nat) (padc : Int) :
    Nat → (num : Nat) → (width : Int) → Output σ → Except Stop (Output σ)
  | 0, _, _, _ => .error .outOfFuel
  | fuel + 1, num, width, out => do
      let result := num / base
      let mod := num % base
      let out ← (
        if num ≥ base then
          printnum sink base padc fuel result (wrap32 (width - 1)) out
        else
          -- `-- width > 0` compares the width with 1, so the least `int` pads nothing
          putPad sink padc (width - 1).toNat out)
      let digit ← load (sink.memory out.state) (.constant (bytesOf "0123456789abcdef")) mod badString
      emit sink digit.toNat out

/-! The scan of an escape. -/

/-- The variables that `vprintfmt` sets between the `%` and the conversion. -/
structure Escape where
  padc : UInt8 := ' '.toUInt8
  width : Int := -1
  precision : Int := -1
  lflag : Nat := 0
  altflag : Bool := false

def Escape.processPrecision (escape : Escape) : Escape :=
  if escape.width < 0 then { escape with width := escape.precision, precision := -1 } else escape

/-- `case '1' ... '9'`; `fmt` is behind the digit `ch`. -/
def scanNumber (memory : KernelMemory) (text : Object) :
    Nat → (fmt : Nat) → (ch : UInt8) → (precision : Int) → Except Stop (Nat × Int)
  | 0, _, _, _ => .error .outOfFuel
  | fuel + 1, fmt, ch, precision => do
      let precision := wrap32 (wrap32 (precision * 10) + ch.toNat - '0'.toNat)
      let ch ← fetch memory text fmt
      if ch < '0'.toUInt8 ∨ ch > '9'.toUInt8 then
        .ok (fmt, precision)
      else
        scanNumber memory text fuel (fmt + 1) ch precision

/-- The conversion character, what is behind it, the arguments that are left and the variables. -/
def reswitch (memory : KernelMemory) (text : Object) :
    Nat → (fmt : Nat) → VaList → Escape → Except Stop (UInt8 × Nat × VaList × Escape)
  | 0, _, _, _ => .error .outOfFuel
  | fuel + 1, fmt, ap, escape => do
      let ch ← fetch memory text fmt
      let fmt := fmt + 1
      if ch = '-'.toUInt8 then
        reswitch memory text fuel fmt ap { escape with padc := '-'.toUInt8 }
      else if ch = '0'.toUInt8 then
        reswitch memory text fuel fmt ap { escape with padc := '0'.toUInt8 }
      else if '1'.toUInt8 ≤ ch ∧ ch ≤ '9'.toUInt8 then do
        let (fmt, precision) ← scanNumber memory text fuel fmt ch 0
        reswitch memory text fuel fmt ap { escape with precision }.processPrecision
      else if ch = '*'.toUInt8 then
        reswitch memory text fuel fmt ap.tail { escape with precision := ap.head.int }.processPrecision
      else if ch = '.'.toUInt8 then
        reswitch memory text fuel fmt ap
          (if escape.width < 0 then { escape with width := 0 } else escape)
      else if ch = '#'.toUInt8 then
        reswitch memory text fuel fmt ap { escape with altflag := true }
      else if ch = 'l'.toUInt8 then
        reswitch memory text fuel fmt ap { escape with lflag := escape.lflag + 1 }
      else
        .ok (ch, fmt, ap, escape)

/-! The conversions. -/

def E_INVAL : Int := 3

def MAXERROR : Int := 6

def errorTexts : List (Option (List UInt8)) :=
  [none, some (bytesOf "unspecified error"), some (bytesOf "bad process"),
    some (bytesOf "invalid parameter"), some (bytesOf "out of memory"),
    some (bytesOf "out of processes"), some (bytesOf "segmentation fault")]

def badIndex : String := "read outside error_string"

/-- `error_string[err]`; `none` is `NULL`. -/
def errorString (err : Int) : Except Stop (Option (List UInt8)) :=
  if 0 ≤ err then
    match errorTexts[err.toNat]? with
    | some p => .ok p
    | none => .error (.panic badIndex)
  else
    .error (.panic badIndex)

/-- `if (err < 0) err = -err`. -/
def errorCode (err : Int) : Int := if err < 0 then wrap32 (-err) else err

/-- `case 'e'`. -/
def putError (printfmt : (text : Object) → VaList → Output σ → Except Stop (Output σ))
    (err : Int) (out : Output σ) : Except Stop (Output σ) := do
  let err := errorCode err
  if err > MAXERROR then
    printfmt (.constant (bytesOf "error %d")) (oneArg (intArg err)) out
  else do
    let p ← errorString err
    match p with
    | none => printfmt (.constant (bytesOf "error %d")) (oneArg (intArg err)) out
    | some p => printfmt (.constant (bytesOf "%s")) (oneArg (.constant p)) out

/-- The padding before a string, and the `width` that is left. -/
def padString (sink : Sink σ) (s : Object) (escape : Escape) (fuel : Nat) (out : Output σ) :
    Except Stop (Int × Output σ) :=
  if escape.width > 0 ∧ escape.padc ≠ '-'.toUInt8 then do
    let length ← strnlen (sink.memory out.state) s (uint64OfInt escape.precision) fuel 0
    let width := wrap32 (escape.width - length)
    let out ← putPad sink escape.padc.toNat width.toNat out
    .ok (min width 0, out)
  else
    .ok (escape.width, out)

/-- The precision is only counted down if there is one. -/
def countDown (precision : Int) : Int := if precision < 0 then precision else precision - 1

/-- What is printed for a character of a string. -/
def shown (altflag : Bool) (ch : UInt8) : UInt8 :=
  if altflag ∧ (ch < ' '.toUInt8 ∨ ch > '~'.toUInt8) then '?'.toUInt8 else ch

/-- The loop over the characters of a string, and the `width` that is left. -/
def putChars (sink : Sink σ) (s : Object) (altflag : Bool) :
    Nat → (p : Nat) → (precision width : Int) → Output σ → Except Stop (Int × Output σ)
  | 0, _, _, _, _ => .error .outOfFuel
  | fuel + 1, p, precision, width, out => do
      let ch ← load (sink.memory out.state) s p badString
      if ch ≠ 0 ∧ (precision < 0 ∨ countDown precision ≥ 0) then do
        let out ← emit sink (shown altflag ch).toNat out
        putChars sink s altflag fuel (p + 1) (countDown precision) (wrap32 (width - 1)) out
      else
        .ok (width, out)

/-- `case 's'`. -/
def putString (sink : Sink σ) (s : Object) (escape : Escape) (fuel : Nat) (out : Output σ) :
    Except Stop (Output σ) := do
  let (width, out) ← padString sink s escape fuel out
  let (width, out) ← putChars sink s escape.altflag fuel 0 escape.precision width out
  putPad sink ' '.toNat width.toNat out

/-- `case 'd'`. -/
def putSigned (sink : Sink σ) (value : Int) (escape : Escape) (fuel : Nat) (out : Output σ) :
    Except Stop (Output σ) := do
  let num := uint64OfInt value
  if int64 num < 0 then do
    let out ← emit sink '-'.toNat out
    printnum sink 10 escape.padc.toNat fuel (uint64OfInt (-int64 num)) escape.width out
  else
    printnum sink 10 escape.padc.toNat fuel num escape.width out

/-- `for (fmt --; fmt[-1] != '%'; fmt --)`, after the first `fmt --`. -/
def rewind (memory : KernelMemory) (text : Object) : (fmt : Nat) → Except Stop Nat
  | 0 => .error (.panic badFormat)
  | fmt + 1 => do
      let ch ← fetch memory text fmt
      if ch ≠ '%'.toUInt8 then rewind memory text fmt else .ok (fmt + 1)

/-- The `switch` on a conversion character: what is scanned next, and the arguments that are left. -/
def convert (sink : Sink σ) (text : Object)
    (printfmt : (text : Object) → VaList → Output σ → Except Stop (Output σ)) (fuel : Nat)
    (ch : UInt8) (fmt : Nat) (ap : VaList) (escape : Escape) (out : Output σ) :
    Except Stop (Nat × VaList × Output σ) := do
  if ch = 'c'.toUInt8 then do
    let out ← emit sink ap.head.int out
    .ok (fmt, ap.tail, out)
  else if ch = 'e'.toUInt8 then do
    let out ← putError printfmt ap.head.int out
    .ok (fmt, ap.tail, out)
  else if ch = 's'.toUInt8 then do
    let s := ap.head.pointer.getD (.constant (bytesOf "(null)"))
    let out ← putString sink s escape fuel out
    .ok (fmt, ap.tail, out)
  else if ch = 'd'.toUInt8 then do
    let out ← putSigned sink (getint ap.head escape.lflag) escape fuel out
    .ok (fmt, ap.tail, out)
  else if ch = 'u'.toUInt8 then do
    let num := getuint ap.head escape.lflag
    let out ← printnum sink 10 escape.padc.toNat fuel num escape.width out
    .ok (fmt, ap.tail, out)
  else if ch = 'o'.toUInt8 then do
    let num := getuint ap.head escape.lflag
    let out ← printnum sink 8 escape.padc.toNat fuel num escape.width out
    .ok (fmt, ap.tail, out)
  else if ch = 'p'.toUInt8 then do
    let out ← emit sink '0'.toNat out
    let out ← emit sink 'x'.toNat out
    let out ← printnum sink 16 escape.padc.toNat fuel ap.head.value escape.width out
    .ok (fmt, ap.tail, out)
  else if ch = 'x'.toUInt8 then do
    let num := getuint ap.head escape.lflag
    let out ← printnum sink 16 escape.padc.toNat fuel num escape.width out
    .ok (fmt, ap.tail, out)
  else if ch = '%'.toUInt8 then do
    let out ← emit sink ch.toNat out
    .ok (fmt, ap, out)
  else do
    -- an unrecognized escape sequence
    let out ← emit sink '%'.toNat out
    let fmt ← rewind (sink.memory out.state) text (fmt - 1)
    .ok (fmt, ap, out)

/-- What follows a `%`; `printfmt` is for the calls that `%e` makes. -/
def processEscape (sink : Sink σ) (text : Object)
    (printfmt : (text : Object) → VaList → Output σ → Except Stop (Output σ)) (fuel : Nat)
    (fmt : Nat) (ap : VaList) (out : Output σ) : Except Stop (Nat × VaList × Output σ) := do
  let (ch, fmt, ap, escape) ← reswitch (sink.memory out.state) text fuel fmt ap {}
  convert sink text printfmt fuel ch fmt ap escape out

/-- Both `while` loops of `vprintfmt`: one round is a character of the format or an escape. -/
def vprintfmtLoop (sink : Sink σ) :
    Nat → (text : Object) → (fmt : Nat) → VaList → Output σ → Except Stop (Output σ)
  | 0, _, _, _, _ => .error .outOfFuel
  | fuel + 1, text, fmt, ap, out => do
      let ch ← fetch (sink.memory out.state) text fmt
      if ch ≠ '%'.toUInt8 then
        if ch = 0 then
          .ok out
        else do
          let out ← emit sink ch.toNat out
          vprintfmtLoop sink fuel text (fmt + 1) ap out
      else do
        let (fmt, ap, out) ← processEscape sink text
          (fun text ap out => vprintfmtLoop sink fuel text 0 ap out) fuel (fmt + 1) ap out
        vprintfmtLoop sink fuel text fmt ap out

def printfmt (sink : Sink σ) (fuel : Nat) (text : Object) (ap : VaList) (out : Output σ) :
    Except Stop (Output σ) :=
  vprintfmtLoop sink fuel text 0 ap out

def vprintfmt (sink : Sink σ) (text : Object) (ap : VaList) (out : Output σ) : Bounded (Output σ) :=
  fun fuel => printfmt sink fuel text ap out

/-! The sinks. -/

/-- The counter behind `cputch`; the console does not touch the memory. -/
structure Console where
  memory : KernelMemory
  cnt : Int

/-- `cputch` of `kern/libs/stdio.c`. -/
def cputch : Sink Console where
  memory console := console.memory
  putch _ console := .ok { console with cnt := wrap32 (console.cnt + 1) }

structure Sprintbuf where
  buf : Nat
  ebuf : Nat
  cnt : Int

/-- The memory and the `struct sprintbuf` on the stack. -/
structure Buffer where
  memory : KernelMemory
  b : Sprintbuf

/-- `*b->buf = ch`. -/
def Buffer.store (buffer : Buffer) (ch : Int) : Except Stop KernelMemory :=
  storeByte buffer.memory buffer.b.buf (UInt8.ofInt ch)

def Buffer.put (ch : Int) (buffer : Buffer) : Except Stop Buffer :=
  let cnt := wrap32 (buffer.b.cnt + 1)
  if buffer.b.buf < buffer.b.ebuf then do
    let memory ← buffer.store ch
    .ok { memory, b := { buffer.b with buf := uint64 (buffer.b.buf + 1), cnt } }
  else
    .ok { buffer with b := { buffer.b with cnt } }

def sprintputch : Sink Buffer where
  memory := Buffer.memory
  putch := Buffer.put

/-- `{str, str + size - 1, 0}`. -/
def sprintbuf (str size : Nat) : Sprintbuf :=
  { buf := str, ebuf := uint64Sub (uint64 (str + size)) 1, cnt := 0 }

/-- The result, and the memory afterwards. -/
def vsnprintf (memory : KernelMemory) (str size : Nat) (text : Object) (ap : VaList) :
    Bounded (Int × KernelMemory) := fun fuel => do
  let b := sprintbuf str size
  if str = 0 ∨ b.buf > b.ebuf then
    .ok (-E_INVAL, memory)
  else do
    let out ← vprintfmt sprintputch text ap (.start { memory, b }) fuel
    let memory ← out.state.store 0
    .ok (out.state.b.cnt, memory)

/-! Arithmetic of `int`. -/

theorem wrap32_of_fits {value : Int} (low : -2 ^ 31 ≤ value) (high : value < 2 ^ 31) :
    wrap32 value = value :=
  Int.bmod_eq_of_le (by omega) (by omega)

theorem wrap32_bounds (value : Int) : -2 ^ 31 ≤ wrap32 value ∧ wrap32 value < 2 ^ 31 := by
  have low := Int.le_bmod (x := value) (m := 0x100000000) (by decide)
  have high := Int.bmod_lt (x := value) (m := 0x100000000) (by decide)
  rw [wrap32]
  omega

/-- The value is one of type `int`. -/
def IsInt (value : Int) : Prop := -2 ^ 31 ≤ value ∧ value < 2 ^ 31

theorem wrap32_turns (value : Int) : ∃ turns, value = wrap32 value + 0x100000000 * turns :=
  ⟨_, (Int.bmod_add_bdiv value 0x100000000).symm⟩

theorem int32_eq_wrap32 (value : Nat) : int32 value = wrap32 value :=
  congrArg (Int.bmod value) (by decide : 2 ^ 32 = 0x100000000)

@[simp] theorem wrap32_wrap32 (value : Int) : wrap32 (wrap32 value) = wrap32 value :=
  Int.bmod_bmod

@[simp] theorem wrap32_wrap32_add (first second : Int) :
    wrap32 (wrap32 first + second) = wrap32 (first + second) :=
  Int.bmod_add_bmod

@[simp] theorem wrap32_wrap32_sub (first second : Int) :
    wrap32 (wrap32 first - second) = wrap32 (first - second) :=
  Int.bmod_sub_bmod

end Ucore.Libs
