import Ucore.Libs.String

namespace Ucore.Libs

open Ucore.Data Ucore.Mm

/-! `strtol` of `libs/string.c`. -/

def isBlank (c : UInt8) : Bool := c == ' '.toUInt8 || c == '\t'.toUInt8

/-- The value of a digit or letter. -/
def digitOf (c : UInt8) : Option Nat :=
  if '0'.toUInt8 ≤ c ∧ c ≤ '9'.toUInt8 then
    some (c.toNat - '0'.toNat)
  else if 'a'.toUInt8 ≤ c ∧ c ≤ 'z'.toUInt8 then
    some (c.toNat - 'a'.toNat + 10)
  else if 'A'.toUInt8 ≤ c ∧ c ≤ 'Z'.toUInt8 then
    some (c.toNat - 'A'.toNat + 10)
  else
    none

/-- The loop over the initial whitespace. -/
def strtolBlanks (memory : KernelMemory) : Nat → (s : Nat) → Except Stop Nat
  | 0, _ => .error .outOfFuel
  | fuel + 1, s => do
      let c ← loadByte memory s
      if isBlank c then strtolBlanks memory fuel (uint64 (s + 1)) else .ok s

/-- The second component is `neg`. -/
def strtolSign (memory : KernelMemory) (s : Nat) : Except Stop (Nat × Bool) := do
  let c ← loadByte memory s
  if c = '+'.toUInt8 then
    .ok (uint64 (s + 1), false)
  else if c = '-'.toUInt8 then
    .ok (uint64 (s + 1), true)
  else
    .ok (s, false)

/-- `(base == 0 || base == 16) && (s[0] == '0' && s[1] == 'x')`. -/
def strtolHex (memory : KernelMemory) (s base : Nat) : Except Stop Bool :=
  if base = 0 ∨ base = 16 then do
    let c ← loadByte memory s
    if c = '0'.toUInt8 then do
      let c ← loadByte memory (uint64 (s + 1))
      .ok (c == 'x'.toUInt8)
    else
      .ok false
  else
    .ok false

/-- The second component is the new `base`. -/
def strtolBase (memory : KernelMemory) (s base : Nat) : Except Stop (Nat × Nat) := do
  let hex ← strtolHex memory s base
  if hex then
    .ok (uint64 (s + 2), 16)
  else if base = 0 then do
    let c ← loadByte memory s
    if c = '0'.toUInt8 then .ok (uint64 (s + 1), 8) else .ok (s, 10)
  else
    .ok (s, base)

/-- The loop over the digits; `val` is a `long`. -/
def strtolDigits (memory : KernelMemory) (base : Nat) :
    Nat → (s : Nat) → (val : Int) → Except Stop (Nat × Int)
  | 0, _, _ => .error .outOfFuel
  | fuel + 1, s, val => do
      let c ← loadByte memory s
      match digitOf c with
      | none => .ok (s, val)
      | some dig =>
          if dig ≥ base then
            .ok (s, val)
          else
            strtolDigits memory base fuel (uint64 (s + 1)) (int64 (int64 (val * base) + dig))

/-- The value, and the store to `*endptr` as its address and what is stored. -/
def strtol (memory : KernelMemory) (s endptr base : Nat) : Bounded (Int × Option (Nat × Nat)) :=
  fun fuel => do
    let s ← strtolBlanks memory fuel s
    let (s, neg) ← strtolSign memory s
    let (s, base) ← strtolBase memory s base
    let (s, val) ← strtolDigits memory base fuel s 0
    let stored := if endptr ≠ 0 then some (endptr, s) else none
    .ok (if neg then int64 (-val) else val, stored)

end Ucore.Libs
