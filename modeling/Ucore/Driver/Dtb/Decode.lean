import Ucore.Driver.Dtb.Bounds
import Ucore.Driver.Dtb.Tree

namespace Ucore.Driver.Dtb

open Ucore.Data Ucore.Libs Ucore.Mm

/-! The walk meets the items of a structure block one after the other. -/

variable {memory : KernelMemory} {stringsBase ptr dtb structOffset stringsOffset : Nat} {flag : Bool}
  {item : Item} {items : List Item} {nodes : Nodes}

/-- How the round at an item ends. -/
def roundOf (ptr : Nat) (item : Item) : Effect → Round
  | .go flag => .more (ptr + item.encode.length) flag
  | .stop found => .done found

theorem beginNode_round {name : CString} (holds : memory.image.Holds ptr (Item.beginNode name).encode)
    (aligned : ptr % 4 = 0) (more : ptr + (Item.beginNode name).encode.length < 2 ^ 64) :
    ∃ token, Shows memory.image token (.beginNode name) ∧
      RoundAt memory.image stringsBase ptr flag token
        (roundOf ptr (.beginNode name) ((Item.beginNode name).effect flag)) := by
  obtain ⟨word, padded⟩ := Image.holds_append.mp holds
  rw [bigEndian32_length] at padded
  have string : StringAt memory.image (ptr + 4) name.bytes := ⟨holds_pad padded, name.noZero⟩
  have length : (Item.beginNode name).encode.length = 4 + (name.bytes.length + 4) / 4 * 4 := by
    rw [Item.encode, List.length_append, bigEndian32_length, pad_length, List.length_append,
      List.length_singleton]
  have next : alignUp (ptr + 4 + name.bytes.length + 1) = ptr + (Item.beginNode name).encode.length := by
    rw [length] at more ⊢
    rw [alignUp_eq (by omega)]
    omega
  have round : RoundAt memory.image stringsBase ptr flag _ _ := .beginNode ⟨by decide, word⟩ string
  rw [next] at round
  exact ⟨_, .beginNode string.holds, round⟩

theorem prop_words {image : Image} {property : Property}
    (holds : image.Holds ptr (Item.prop property).encode) :
    Word image ptr FDT_PROP ∧ Word image (ptr + 4) property.data.length ∧
      Word image (ptr + 8) property.nameoff ∧ image.Holds (ptr + 12) property.data := by
  simp only [Item.encode, Image.holds_append, List.length_append, bigEndian32_length] at holds
  obtain ⟨⟨⟨word, len⟩, nameoff⟩, padded⟩ := holds
  exact ⟨⟨by decide, word⟩, ⟨property.length_lt, len⟩, ⟨property.nameoff_lt, nameoff⟩,
    holds_pad padded⟩

theorem prop_end {property : Property} (aligned : ptr % 4 = 0)
    (more : ptr + (Item.prop property).encode.length < 2 ^ 64) :
    alignUp (ptr + 12 + property.data.length) = ptr + (Item.prop property).encode.length := by
  have length : (Item.prop property).encode.length = 12 + (property.data.length + 3) / 4 * 4 := by
    simp only [Item.encode, List.length_append, bigEndian32_length, pad_length]
  rw [length] at more ⊢
  rw [alignUp_eq (by omega)]
  omega

theorem holds_reg {image : Image} {data : List UInt8} (holds : image.Holds ptr data) :
    image.Holds ptr (data.take 8 ++ (data.drop 8).take 8) := by
  refine holds.shorten ?_
  rw [← List.take_add]
  exact List.take_prefix _ _

theorem prop_round {property : Property}
    (holds : memory.image.Holds ptr (Item.prop property).encode) (aligned : ptr % 4 = 0)
    (name : StringAt memory.image (uint64 (stringsBase + property.nameoff)) property.name.bytes)
    (more : ptr + (Item.prop property).encode.length < 2 ^ 64) :
    ∃ token, Shows memory.image token (.prop property) ∧
      RoundAt memory.image stringsBase ptr flag token
        (roundOf ptr (.prop property) ((Item.prop property).effect flag)) := by
  obtain ⟨isToken, hasLen, hasNameoff, data⟩ := prop_words holds
  have compares := name.compares regName_noZero
  refine ⟨.prop property.data.length property.nameoff (uint64 (ptr + 12)),
    .prop ((memory.holds_uint64 hasNameoff.end_le).mpr data), ?_⟩
  by_cases isReg : flag = true ∧ property.isReg = true
  · have wide : property.name.bytes = regName ∧ 16 ≤ property.data.length := by
      simpa [Property.isReg] using isReg.2
    have effect : (Item.prop property).effect flag = .stop (some property.reg) :=
      if_pos (by simpa using isReg)
    rw [wide.1, decide_eq_true rfl] at compares
    rw [effect]
    refine .found isToken hasLen hasNameoff isReg.1 compares wide.2 ⟨?_, ?_⟩ (holds_reg data)
    · rw [List.length_take]
      omega
    · rw [List.length_take, List.length_drop]
      omega
  · have effect : (Item.prop property).effect flag = .go flag := if_neg (by simpa using isReg)
    rw [effect, roundOf, ← prop_end aligned more]
    refine .skipped isToken hasLen hasNameoff ?_
    cases flag with
    | false => exact .inl rfl
    | true =>
        refine .inr ⟨_, compares, ?_⟩
        rw [decide_eq_false_iff_not]
        by_cases short : property.data.length < 16
        · exact .inr short
        · refine .inl fun same => isReg ⟨rfl, ?_⟩
          simpa [Property.isReg] using ⟨same, Nat.not_lt.mp short⟩

theorem item_round (flag : Bool) (holds : memory.image.Holds ptr item.encode) (aligned : ptr % 4 = 0)
    (names : ∀ property, item = .prop property →
      StringAt memory.image (uint64 (stringsBase + property.nameoff)) property.name.bytes)
    (more : item ≠ .finish → ptr + item.encode.length < 2 ^ 64) :
    ∃ token, Shows memory.image token item ∧
      RoundAt memory.image stringsBase ptr flag token (roundOf ptr item (item.effect flag)) := by
  cases item with
  | beginNode name => exact beginNode_round holds aligned (more (by simp))
  | endNode =>
      have round : RoundAt memory.image stringsBase ptr flag _ _ := .endNode ⟨by decide, holds⟩
      have below : ptr + 4 < 2 ^ 64 := more (by simp)
      rw [uint64_of_lt below] at round
      exact ⟨_, .endNode, round⟩
  | prop property => exact prop_round holds aligned (names property rfl) (more (by simp))
  | nop =>
      have round : RoundAt memory.image stringsBase ptr flag _ _ := .nop ⟨by decide, holds⟩
      have below : ptr + 4 < 2 ^ 64 := more (by simp)
      rw [uint64_of_lt below] at round
      exact ⟨_, .nop, round⟩
  | finish => exact ⟨_, .finish, .stop ⟨by decide, holds⟩ (by decide)⟩

/-- What was read is what stands there. -/
def Reads (image : Image) (read : Nat × Token) (placed : Nat × Item) : Prop :=
  read.1 = placed.1 ∧ Shows image read.2 placed.2

/-- While the end token is to come, the cursor stays below the top of the address space. -/
theorem later_below (holds : memory.image.Holds ptr (encode items)) (ends : .finish ∈ items) :
    ptr < 2 ^ 64 := by
  have some : encode items ≠ [] := by
    obtain ⟨before, after, rfl⟩ := List.append_of_mem ends
    simp [encode, Item.encode, bigEndian32]
  have bounds := memory.holds_le holds some
  have positive := List.length_pos_iff.mpr some
  omega

/-- The walk reads the items in order, until one of them ends it. -/
theorem items_walk (flag : Bool) (holds : memory.image.Holds ptr (encode items)) (aligned : ptr % 4 = 0)
    (names : ∀ property, .prop property ∈ items →
      StringAt memory.image (uint64 (stringsBase + property.nameoff)) property.name.bytes)
    (ends : .finish ∈ items) :
    ∃ log consumed, Walk memory.image stringsBase ptr flag log (scan flag items) ∧
      consumed <+: positions ptr items ∧ consumed.map Prod.snd = visited flag items ∧
      List.Forall₂ (Reads memory.image) log consumed := by
  induction items generalizing ptr flag with
  | nil => cases ends
  | cons item items ih =>
      rw [encode_cons, Image.holds_append] at holds
      obtain ⟨own, later⟩ := holds
      have onward (notLast : item ≠ .finish) : .finish ∈ items :=
        (List.mem_cons.mp ends).resolve_left (Ne.symm notLast)
      obtain ⟨token, shows, round⟩ := item_round flag own aligned
        (fun property same => names property (by simp [same]))
        (fun notLast => later_below later (onward notLast))
      cases effect : item.effect flag with
      | stop found =>
          rw [effect] at round
          refine ⟨[(ptr, token)], [(ptr, item)], ?_, ?_, ?_, .cons ⟨rfl, shows⟩ .nil⟩
          · simp only [scan, effect]
            exact .done round
          · simp [positions]
          · simp [visited, effect]
      | go flag' =>
          rw [effect] at round
          have notLast : item ≠ .finish := by
            intro last
            rw [last] at effect
            cases effect
          have alignedNext := encode_aligned item
          obtain ⟨log, consumed, walk, isPrefix, listed, reads⟩ := ih flag' later (by omega)
            (fun property member => names property (List.mem_cons_of_mem _ member)) (onward notLast)
          refine ⟨(ptr, token) :: log, (ptr, item) :: consumed, ?_, ?_, ?_, .cons ⟨rfl, shows⟩ reads⟩
          · simp only [scan, effect]
            exact .more round walk
          · rw [positions, List.prefix_cons_inj]
            exact isPrefix
          · simp only [visited, effect, List.map_cons, listed]

theorem Laid.walk (laid : Laid memory dtb structOffset stringsOffset items) (ends : .finish ∈ items) :
    ∃ log consumed, Returns (extractMemoryInfo memory dtb dtb) (log, scan false items) ∧
      consumed <+: positions (uint64 (dtb + structOffset)) items ∧
      consumed.map Prod.snd = visited false items ∧ List.Forall₂ (Reads memory.image) log consumed := by
  have aligned : uint64 (dtb + structOffset) % 4 = 0 := by
    have multiple := laid.aligned
    rw [uint64]
    omega
  obtain ⟨log, consumed, walk, decoded⟩ :=
    items_walk false laid.block aligned laid.names ends
  have start : dtb + 8 ≤ 2 ^ 64 := by
    have field := laid.struct.end_le
    rw [fdtOffDtStruct] at field
    omega
  have hasStrings := (word_uint64 laid.struct.end_le).mpr laid.strings
  have hasStruct := (word_uint64 start).mpr laid.struct
  exact ⟨log, consumed, extractMemoryInfo_iff.mpr ⟨_, _, hasStruct, hasStrings, walk⟩, decoded⟩

/-! Blobs as version 17 of the format has them. -/

/-- The other fields of the header, and a memory reservation block without entries. -/
def fdtReserved (stringsSize structSize : Nat) : List UInt8 :=
  bigEndian32 40 ++ bigEndian32 17 ++ bigEndian32 16 ++ bigEndian32 0 ++ bigEndian32 stringsSize ++
    bigEndian32 structSize ++ List.replicate 16 0

def treeBlob (items : List Item) (strings : List UInt8)
    (fits : (encode items).length + strings.length ≤ 2 ^ 20) : KernelMemory :=
  memoryOf dtbAddress
    (fdtHeader (56 + ((encode items).length + strings.length)) 56 (56 + (encode items).length) ++
      (fdtReserved strings.length (encode items).length ++ (encode items ++ strings)))
    dtbAddress_mapped (by
      simp only [List.length_append, fdtHeader, fdtReserved, bigEndian32_length,
        List.length_replicate, dtbAddress]
      omega)

theorem treeBlob_laid {strings : List UInt8} (fits : (encode items).length + strings.length ≤ 2 ^ 20)
    (named : ∀ property, .prop property ∈ items →
      property.name.bytes ++ [0] <+: strings.drop property.nameoff) :
    Laid (treeBlob items strings fits) dtbAddress 56 (56 + (encode items).length) items := by
  have reserved (stringsSize structSize : Nat) : (fdtReserved stringsSize structSize).length = 40 := by
    simp only [fdtReserved, List.length_append, bigEndian32_length, List.length_replicate]
  have all : (treeBlob items strings fits).image.Holds dtbAddress _ := Image.ofBytes_holds _ _
  simp only [fdtHeader, Image.holds_append, List.length_append, bigEndian32_length, reserved] at all
  obtain ⟨⟨⟨⟨_, _⟩, struct⟩, strings⟩, _, block, names⟩ := all
  have start : uint64 (dtbAddress + 56) = dtbAddress + 56 := uint64_of_lt (by decide)
  have place (property : Property) (member : .prop property ∈ items) :
      uint64 (uint64 (dtbAddress + (56 + (encode items).length)) + property.nameoff) =
        dtbAddress + 56 + (encode items).length + property.nameoff := by
    have short := (named property member).length_le
    rw [List.length_append, List.length_singleton, List.length_drop] at short
    rw [uint64_add, uint64_of_lt]
    · omega
    · rw [dtbAddress]
      omega
  exact
    { struct := ⟨by decide, struct⟩
      strings := ⟨by omega, strings⟩
      aligned := by decide
      block := by
        rw [start]
        exact block
      names := by
        intro property member
        rw [place property member]
        exact ⟨(names.drop property.nameoff).shorten (named property member), property.name.noZero⟩ }

/-- A property whose name is at the beginning of the strings block. -/
def regProperty (data : List UInt8) (length_lt : data.length < 2 ^ 32) : Property :=
  ⟨⟨regName, regName_noZero⟩, 0, data, by decide, length_lt⟩

/-- A node with an end token as the data of a property, and one without properties. -/
def payloadTree : Nodes :=
  .node ⟨[], rootName_noZero⟩ [regProperty (bigEndian32 FDT_END) (by decide)]
    (.node ⟨[99, 112, 117], by decide⟩ [] .none .none) .none

def payloadItems : List Item :=
  [.beginNode ⟨[], rootName_noZero⟩, .nop, .prop (regProperty (bigEndian32 FDT_END) (by decide)),
    .beginNode ⟨[99, 112, 117], by decide⟩, .endNode, .nop, .endNode, .finish]

theorem payload_fits : (encode payloadItems).length + (regName ++ [0]).length ≤ 2 ^ 20 := by decide

theorem Serialises.ends (serialises : Serialises nodes items) : .finish ∈ items := by
  have last : .finish ∈ items.filter (!·.isNop) := by
    rw [serialises]
    exact List.mem_append_right _ (List.mem_singleton_self _)
  exact List.mem_of_mem_filter last

/-- Whatever the tree, the tokens that are read are the first ones of its structure block, up to the
item at which the walk ends, and the result is that of this item. -/
theorem walk_decodes (serialises : Serialises nodes items)
    (laid : Laid memory dtb structOffset stringsOffset items) :
    ∃ log consumed, Returns (extractMemoryInfo memory dtb dtb) (log, scan false items) ∧
      consumed <+: positions (uint64 (dtb + structOffset)) items ∧
      consumed.map Prod.snd = visited false items ∧
      List.Forall₂ (Reads memory.image) log consumed :=
  laid.walk serialises.ends

/-- All tokens of the tree are read, since no node of it is a memory node. -/
theorem walk_decodes_payload : ∃ log consumed,
    Returns (extractMemoryInfo (treeBlob payloadItems _ payload_fits) dtbAddress dtbAddress) (log, none) ∧
      consumed <+: positions (uint64 (dtbAddress + 56)) payloadItems ∧
      consumed.map Prod.snd = payloadItems ∧
      List.Forall₂ (Reads (treeBlob payloadItems _ payload_fits).image) log consumed := by
  have serialises : Serialises payloadTree payloadItems := rfl
  exact walk_decodes serialises
    (treeBlob_laid payload_fits (by simp [payloadItems, regProperty]))

end Ucore.Driver.Dtb
