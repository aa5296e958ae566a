import Ucore.Libs.Printfmt

namespace Ucore.Libs

open Ucore.Data Ucore.Mm

/-! `libs/readline.c`, and `cputchar` and `cprintf` of `kern/libs/stdio.c`. -/

def BUFSIZE : Nat := 1024

/-- `buf`. -/
structure LineBuffer where
  bytes : List UInt8
  isSize : bytes.length = BUFSIZE

/-- `buf[i] = c`. -/
def LineBuffer.store (buf : LineBuffer) (i c : Int) : Except Stop LineBuffer :=
  if 0 ≤ i ∧ i < BUFSIZE then
    .ok {
      bytes := buf.bytes.set i.toNat (UInt8.ofInt c)
      isSize := List.length_set.trans buf.isSize }
  else
    .error (.panic "write outside buf")

/-- `'\b'`. -/
def backspace : Int := 8

/-- What the console shows, with one more character. -/
def cputchar (c : Int) (shown : List Int) : List Int := shown ++ [c]

/-- The number of characters, and what the console shows then. -/
def cprintf (memory : KernelMemory) (fmt : Object) (ap : VaList) (shown : List Int) :
    Bounded (Int × List Int) := fun fuel => do
  let out ← vprintfmt cputch fmt ap ⟨{ memory, cnt := 0 }, shown⟩ fuel
  .ok (out.state.cnt, out.emitted)

/-- The variables of `readline`, and what the console shows. -/
structure Reader where
  buf : LineBuffer
  i : Int
  shown : List Int

/-- Where `readline` is: it waits for `getchar`, or it has returned `NULL` or `buf`. -/
inductive Answer where
  | reading (reader : Reader)
  | null (reader : Reader)
  | line (reader : Reader)

def Answer.reader : Answer → Reader
  | reading reader => reader
  | null reader => reader
  | line reader => reader

/-- One round, with what `getchar` delivers. -/
def Reader.get (reader : Reader) (c : Int) : Except Stop Answer :=
  if c < 0 then
    .ok (.null reader)
  else if c ≥ ' '.toNat ∧ reader.i < BUFSIZE - 1 then do
    let shown := cputchar c reader.shown
    let buf ← reader.buf.store reader.i c
    .ok (.reading { buf, i := wrap32 (reader.i + 1), shown })
  else if c = backspace ∧ reader.i > 0 then
    .ok (.reading { reader with i := wrap32 (reader.i - 1), shown := cputchar c reader.shown })
  else if c = '\n'.toNat ∨ c = '\r'.toNat then do
    let shown := cputchar c reader.shown
    let buf ← reader.buf.store reader.i 0
    .ok (.line { reader with buf, shown })
  else
    .ok (.reading reader)

/-- The `while` loop, as far as there is input. -/
def readlineLoop : (input : List Int) → Reader → Except Stop Answer
  | [], reader => .ok (.reading reader)
  | c :: input, reader => do
      let answer ← reader.get c
      match answer with
      | .reading reader => readlineLoop input reader
      | answer => .ok answer

def readline (memory : KernelMemory) (prompt : Arg) (buf : LineBuffer) (shown : List Int)
    (input : List Int) : Bounded Answer := fun fuel => do
  let shown ← (
    if prompt.pointer ≠ none then do
      let (_, shown) ← cprintf memory (.constant (bytesOf "%s")) (oneArg prompt) shown fuel
      .ok shown
    else
      .ok shown)
  readlineLoop input { buf, i := 0, shown }

end Ucore.Libs
