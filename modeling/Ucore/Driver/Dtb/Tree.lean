import Ucore.Driver.Dtb.Walk

namespace Ucore.Driver.Dtb

open Ucore.Data Ucore.Libs Ucore.Mm

/-! Device trees and the structure blocks that stand for them. -/

/-- The bytes of a string, without the terminator. -/
structure CString where
  bytes : List UInt8
  noZero : 0 ∉ bytes

theorem rootName_noZero : (0 : UInt8) ∉ ([] : List UInt8) := List.not_mem_nil

structure Property where
  name : CString
  nameoff : Nat
  data : List UInt8
  nameoff_lt : nameoff < 2 ^ 32
  length_lt : data.length < 2 ^ 32

/-- A row of sibling nodes: the first one with its properties and its children, and the others.
A device tree is a row of one node. -/
inductive Nodes where
  | none
  | node (name : CString) (props : List Property) (children siblings : Nodes)

inductive Item where
  | beginNode (name : CString)
  | endNode
  | prop (property : Property)
  | nop
  | finish

/-- Zeros up to the next multiple of four. -/
def pad (bytes : List UInt8) : List UInt8 :=
  bytes ++ List.replicate ((4 - bytes.length % 4) % 4) 0

def Item.encode : Item → List UInt8
  | .beginNode name => bigEndian32 FDT_BEGIN_NODE ++ pad (name.bytes ++ [0])
  | .endNode => bigEndian32 FDT_END_NODE
  | .prop property => bigEndian32 FDT_PROP ++ bigEndian32 property.data.length ++
      bigEndian32 property.nameoff ++ pad property.data
  | .nop => bigEndian32 FDT_NOP
  | .finish => bigEndian32 FDT_END

def encode (items : List Item) : List UInt8 := items.flatMap Item.encode

def Item.isNop : Item → Bool
  | .nop => true
  | _ => false

/-- The tokens of a tree, in the order of its structure block. -/
def Nodes.items : Nodes → List Item
  | .none => []
  | .node name props children siblings =>
      .beginNode name :: (props.map .prop ++ (children.items ++ .endNode :: siblings.items))

/-- A structure block for the tree has `FDT_NOP` tokens at any place. -/
def Serialises (nodes : Nodes) (items : List Item) : Prop :=
  items.filter (!·.isNop) = nodes.items ++ [.finish]

/-- Where each of the items stands. -/
def positions : (ptr : Nat) → List Item → List (Nat × Item)
  | _, [] => []
  | ptr, item :: items => (ptr, item) :: positions (ptr + item.encode.length) items

/-- A blob with this structure block is in memory. -/
structure Laid (memory : KernelMemory) (dtb structOffset stringsOffset : Nat) (items : List Item) :
    Prop where
  struct : Word memory.image (dtb + fdtOffDtStruct) structOffset
  strings : Word memory.image (dtb + fdtOffDtStrings) stringsOffset
  aligned : 4 ∣ dtb + structOffset
  block : memory.image.Holds (uint64 (dtb + structOffset)) (encode items)
  names : ∀ property, .prop property ∈ items → StringAt memory.image
    (uint64 (uint64 (dtb + stringsOffset) + property.nameoff)) property.name.bytes

/-- A token that was read is this item of the block. -/
inductive Shows (image : Image) : Token → Item → Prop where
  | beginNode {name : Nat} {string : CString} (holds : image.Holds name (string.bytes ++ [0])) :
      Shows image (.beginNode name string.bytes.length) (.beginNode string)
  | endNode : Shows image .endNode .endNode
  | prop {propData : Nat} {property : Property} (holds : image.Holds propData property.data) :
      Shows image (.prop property.data.length property.nameoff propData) (.prop property)
  | nop : Shows image .nop .nop
  | finish : Shows image (.other FDT_END) .finish

/-! What the walk makes of the items. -/

inductive Effect where
  | go (flag : Bool)
  | stop (found : Option (Nat × Nat))

/-- The base and the size that a `reg` property gives. -/
def Property.reg (property : Property) : Nat × Nat :=
  (fromBigEndian (property.data.take 8), fromBigEndian ((property.data.drop 8).take 8))

/-- A `reg` property of at least two 64-bit cells. -/
def Property.isReg (property : Property) : Bool :=
  property.name.bytes = regName ∧ 16 ≤ property.data.length

def Item.effect (flag : Bool) : Item → Effect
  | .beginNode name => .go (flag || decide (memoryName <+: name.bytes))
  | .endNode => .go false
  | .prop property => if flag && property.isReg then .stop (some property.reg) else .go flag
  | .nop => .go flag
  | .finish => .stop none

def scan : (flag : Bool) → List Item → Option (Nat × Nat)
  | _, [] => none
  | flag, item :: items =>
      match item.effect flag with
      | .go flag => scan flag items
      | .stop found => found

/-- The items up to the one at which the walk ends. -/
def visited : (flag : Bool) → List Item → List Item
  | _, [] => []
  | flag, item :: items =>
      match item.effect flag with
      | .go flag => item :: visited flag items
      | .stop _ => [item]

variable {memory : KernelMemory} {image : Image} {stringsBase ptr : Nat} {flag : Bool}
  {bytes : List UInt8} {item : Item} {items : List Item}

theorem pad_length (bytes : List UInt8) : (pad bytes).length = (bytes.length + 3) / 4 * 4 := by
  rw [pad, List.length_append, List.length_replicate]
  omega

theorem encode_aligned (item : Item) : item.encode.length % 4 = 0 := by
  cases item with
  | beginNode name =>
      rw [Item.encode, List.length_append, pad_length, bigEndian32_length]
      omega
  | endNode => rfl
  | prop property =>
      simp only [Item.encode, List.length_append, pad_length, bigEndian32_length]
      omega
  | nop => rfl
  | finish => rfl

theorem encode_cons : encode (item :: items) = item.encode ++ encode items := rfl

theorem alignUp_eq (below : ptr + 3 < 2 ^ 64) : alignUp ptr = (ptr + 3) / 4 * 4 := by
  rw [alignUp, uint64_of_lt below]
  exact and_uint64Not below (by decide : 2 ≤ 64)

theorem holds_pad (holds : image.Holds ptr (pad bytes)) : image.Holds ptr bytes :=
  (Image.holds_append.mp holds).1

end Ucore.Driver.Dtb
