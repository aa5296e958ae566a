import Ucore.Libs.String
import Ucore.Mm.Memlayout

namespace Ucore.Driver

open Ucore.Data Ucore.Libs Ucore.Mm

/-! `kern/driver/dtb.c`: the walk over the structure block of a flattened device tree. -/

def FDT_BEGIN_NODE : Nat := 0x00000001

def FDT_END_NODE : Nat := 0x00000002

def FDT_PROP : Nat := 0x00000003

def FDT_NOP : Nat := 0x00000004

def FDT_END : Nat := 0x00000009

def FDT_MAGIC : Nat := 0xd00dfeed

def fdt32ToCpu (x : Nat) : Nat :=
  (x &&& 0xff) <<< 24 ||| (x >>> 8 &&& 0xff) <<< 16 ||| (x >>> 16 &&& 0xff) <<< 8 |||
    (x >>> 24 &&& 0xff)

def fdt64ToCpu (x : Nat) : Nat :=
  fdt32ToCpu (x &&& 0xffffffff) <<< 32 ||| fdt32ToCpu (x >>> 32)

/-- `fdt32_to_cpu(*pointer)`. -/
def loadFdt32 (memory : KernelMemory) (pointer : Nat) : Except Stop Nat := do
  let word ← loadBytes memory pointer 4
  .ok (fdt32ToCpu word)

/-- `fdt64_to_cpu(*pointer)`. -/
def loadFdt64 (memory : KernelMemory) (pointer : Nat) : Except Stop Nat := do
  let word ← loadBytes memory pointer 8
  .ok (fdt64ToCpu word)

/-- `"memory"`. -/
def memoryName : List UInt8 := [109, 101, 109, 111, 114, 121]

/-- `"reg"`. -/
def regName : List UInt8 := [114, 101, 103]

/-! The offsets of the fields of `struct fdt_header` that are read. -/

def fdtTotalsize : Nat := 4

def fdtOffDtStruct : Nat := 8

def fdtOffDtStrings : Nat := 12

/-- What the loop found at a token; it is recorded for statements about the walk. -/
inductive Token where
  | beginNode (name : Nat) (nameLen : Int)
  | endNode
  | prop (propLen propNameoff propData : Nat)
  | nop
  | other (token : Nat)
deriving DecidableEq, Repr

/-- How a round of the loop ends: with a cursor and a flag, or with the result. -/
inductive Round where
  | more (structPtr : Nat) (inMemoryNode : Bool)
  | done (found : Option (Nat × Nat))
deriving DecidableEq, Repr

/-- `in_memory_node && strcmp(prop_name, "reg") == 0 && prop_len >= 16`. -/
def isMemoryReg (memory : KernelMemory) (inMemoryNode : Bool) (propName propLen : Nat) :
    Except Stop Bool :=
  if inMemoryNode then do
    let compared ← strcmp memory propName regName
    .ok (compared = 0 ∧ propLen ≥ 16)
  else
    .ok false

/-- The body of `while (1)`. -/
def extractRound (memory : KernelMemory) (stringsBase structPtr : Nat) (inMemoryNode : Bool) :
    Bounded (Token × Round) := fun fuel => do
  let token ← loadFdt32 memory structPtr
  let structPtr := uint64 (structPtr + 4)
  if token = FDT_BEGIN_NODE then
    let name := structPtr
    let nameLen := int32 (← strlen memory name fuel)
    let inMemoryNode :=
      if (← strncmp memory name memoryName 6) = 0 then true else inMemoryNode
    .ok (.beginNode name nameLen,
      .more (uint64OfInt (structPtr + nameLen + 4) &&& uint64Not 3) inMemoryNode)
  else if token = FDT_END_NODE then
    .ok (.endNode, .more structPtr false)
  else if token = FDT_PROP then
    let propLen ← loadFdt32 memory structPtr
    let structPtr := uint64 (structPtr + 4)
    let propNameoff ← loadFdt32 memory structPtr
    let structPtr := uint64 (structPtr + 4)
    let propName := uint64 (stringsBase + propNameoff)
    if ← isMemoryReg memory inMemoryNode propName propLen then
      let memBase ← loadFdt64 memory structPtr
      let memSize ← loadFdt64 memory (uint64 (structPtr + 8))
      .ok (.prop propLen propNameoff structPtr, .done (some (memBase, memSize)))
    else
      .ok (.prop propLen propNameoff structPtr,
        .more (uint64 (structPtr + propLen + 3) &&& uint64Not 3) inMemoryNode)
  else if token = FDT_NOP then
    .ok (.nop, .more structPtr inMemoryNode)
  else
    -- `FDT_END`, or no token at all
    .ok (.other token, .done none)

def extractLoop (memory : KernelMemory) (stringsBase : Nat) :
    Nat → (structPtr : Nat) → (inMemoryNode : Bool) →
      Except Stop (List (Nat × Token) × Option (Nat × Nat))
  | 0, _, _ => .error .outOfFuel
  | fuel + 1, structPtr, inMemoryNode => do
      let (token, round) ← extractRound memory stringsBase structPtr inMemoryNode fuel
      match round with
      | .done found => .ok ([(structPtr, token)], found)
      | .more next inMemoryNode =>
          let (later, found) ← extractLoop memory stringsBase fuel next inMemoryNode
          .ok ((structPtr, token) :: later, found)

/-- The tokens that were read, and the base and the size, or `none` for -1. -/
def extractMemoryInfo (memory : KernelMemory) (dtbVaddr header : Nat) :
    Bounded (List (Nat × Token) × Option (Nat × Nat)) := fun fuel => do
  let structOffset ← loadFdt32 memory (uint64 (header + fdtOffDtStruct))
  let stringsOffset ← loadFdt32 memory (uint64 (header + fdtOffDtStrings))
  let stringsBase := uint64 (dtbVaddr + stringsOffset)
  let structPtr := uint64 (dtbVaddr + structOffset)
  extractLoop memory stringsBase fuel structPtr false

/-- `memory_base` and `memory_size`. -/
structure MemoryInfo where
  memoryBase : Nat
  memorySize : Nat
deriving DecidableEq, Repr

def dtbInit (memory : KernelMemory) (info : MemoryInfo) (bootDtb : Nat) : Bounded MemoryInfo :=
  fun fuel =>
    if bootDtb = 0 then
      .ok info
    else do
      let dtbVaddr := uint64 (bootDtb + PHYSICAL_MEMORY_OFFSET)
      let magic ← loadFdt32 memory dtbVaddr
      if magic ≠ FDT_MAGIC then
        .ok info
      else
        match ← extractMemoryInfo memory dtbVaddr dtbVaddr fuel with
        | (_, some (memBase, memSize)) => .ok ⟨memBase, memSize⟩
        | (_, none) => .ok info

end Ucore.Driver
