import Ucore.Driver.Dtb.Walk

namespace Ucore.Driver.Dtb

open Ucore.Data Ucore.Libs Ucore.Mm

/-! Which blobs the walk does not leave. -/

variable {memory : KernelMemory} {image : Image} {stringsBase strings ptr address dtb size : Nat}
  {flag : Bool} {token : Token} {round : Round} {constant : List UInt8} {log : List (Nat × Token)}
  {found : Option (Nat × Nat)}

/-- The memory of which only the blob can be read. -/
def blobOnly (memory : KernelMemory) (dtb size : Nat) : KernelMemory where
  image := memory.image.within dtb size
  mapped address read := by
    refine memory.mapped address fun none => read ?_
    rw [Image.within, none, ite_self]

/-- The walk ends with 0 or -1, and does so too when nothing but the blob can be read. -/
def StaysInside (memory : KernelMemory) (dtb size : Nat) : Prop :=
  ∃ log found, Returns (extractMemoryInfo memory dtb dtb) (log, found) ∧
    Returns (extractMemoryInfo (blobOnly memory dtb size) dtb dtb) (log, found)

/-! The items of a blob, by its bytes alone. -/

/-- The address, or the next multiple of four. -/
def aligned (address : Nat) : Nat := (address + 3) / 4 * 4

/-- The first byte in which the text here is not the constant can be read. -/
def Differs (image : Image) (constant : List UInt8) (address : Nat) : Prop :=
  ∃ common expected rest byte, constant = common ++ expected :: rest ∧
    image.Holds address (common ++ [byte]) ∧ byte ≠ expected

/-- Complete items follow each other from the address on.  The last one is a `FDT_END` or no token at
all, or the `reg` property of a memory node.  The flag says whether a node whose name begins with
`memory` has begun since the last `FDT_END_NODE`; only then is the name of a property read. -/
inductive Complete (image : Image) (strings : Nat) : (address : Nat) → (inMemory : Bool) → Prop where
  | beginNode {address : Nat} {inMemory : Bool} {name : List UInt8}
      (token : Word image address FDT_BEGIN_NODE) (string : StringAt image (address + 4) name)
      (rest : Complete image strings (aligned (address + 4 + name.length + 1))
        (inMemory || decide (memoryName <+: name))) : Complete image strings address inMemory
  | endNode {address : Nat} {inMemory : Bool} (token : Word image address FDT_END_NODE)
      (rest : Complete image strings (address + 4) false) : Complete image strings address inMemory
  | prop {address length nameoff : Nat} {inMemory : Bool} (token : Word image address FDT_PROP)
      (hasLength : Word image (address + 4) length) (hasNameoff : Word image (address + 8) nameoff)
      (notReg : inMemory = true → Differs image (regName ++ [0]) (strings + nameoff) ∨
        image.Holds (strings + nameoff) (regName ++ [0]) ∧ length < 16)
      (rest : Complete image strings (aligned (address + 12 + length)) inMemory) :
      Complete image strings address inMemory
  | nop {address : Nat} {inMemory : Bool} (token : Word image address FDT_NOP)
      (rest : Complete image strings (address + 4) inMemory) : Complete image strings address inMemory
  | reg {address length nameoff : Nat} {data : List UInt8} (token : Word image address FDT_PROP)
      (hasLength : Word image (address + 4) length) (hasNameoff : Word image (address + 8) nameoff)
      (isReg : image.Holds (strings + nameoff) (regName ++ [0])) (wide : 16 ≤ length)
      (cells : data.length = 16) (holds : image.Holds (address + 12) data) :
      Complete image strings address true
  | last {address word : Nat} {inMemory : Bool} (token : Word image address word)
      (unknown : word ≠ FDT_BEGIN_NODE ∧ word ≠ FDT_END_NODE ∧ word ≠ FDT_PROP ∧ word ≠ FDT_NOP) :
      Complete image strings address inMemory

/-- The fields of the header that are read and the items from `off_dt_struct` on lie in the blob. -/
def CompleteBlob (memory : KernelMemory) (dtb size : Nat) : Prop :=
  ∃ structOffset stringsOffset,
    Word (blobOnly memory dtb size).image (dtb + fdtOffDtStruct) structOffset ∧
    Word (blobOnly memory dtb size).image (dtb + fdtOffDtStrings) stringsOffset ∧
    Complete (blobOnly memory dtb size).image (dtb + stringsOffset) (dtb + structOffset) false

theorem compares_true_iff :
    Compares image constant address true ↔ image.Holds address (constant ++ [0]) := by
  induction constant generalizing address with
  | nil => simp [Compares, Image.Holds]
  | cons expected constant ih =>
      rw [Compares, List.cons_append, Image.Holds, ← ih]
      constructor
      · intro compares
        obtain ⟨byte, read, onward⟩ := compares
        split at onward
        · rename_i same
          exact ⟨same ▸ read, onward⟩
        · cases onward
      · intro holds
        exact ⟨expected, holds.1, by rw [if_pos rfl]; exact holds.2⟩

theorem compares_false_iff :
    Compares image constant address false ↔ Differs image (constant ++ [0]) address := by
  induction constant generalizing address with
  | nil =>
      constructor
      · intro compares
        obtain ⟨byte, read, differs⟩ := compares
        exact ⟨[], 0, [], byte, rfl, ⟨read, trivial⟩, of_decide_eq_false differs.symm⟩
      · intro differs
        obtain ⟨common, expected, rest, byte, split, holds, other⟩ := differs
        cases common with
        | nil =>
            obtain ⟨rfl, -⟩ := List.cons.inj split
            exact ⟨byte, holds.1, (decide_eq_false other).symm⟩
        | cons _ common => simp at split
  | cons first constant ih =>
      rw [Compares]
      constructor
      · intro compares
        obtain ⟨byte, read, onward⟩ := compares
        by_cases same : byte = first
        · rw [if_pos same] at onward
          obtain ⟨common, expected, rest, last, split, holds, other⟩ := ih.mp onward
          exact ⟨first :: common, expected, rest, last, congrArg (first :: ·) split,
            ⟨same ▸ read, holds⟩, other⟩
        · exact ⟨[], first, constant ++ [0], byte, rfl, ⟨read, trivial⟩, same⟩
      · intro differs
        obtain ⟨common, expected, rest, byte, split, holds, other⟩ := differs
        cases common with
        | nil =>
            obtain ⟨rfl, -⟩ := List.cons.inj split
            exact ⟨byte, holds.1, by rw [if_neg other]⟩
        | cons shared common =>
            obtain ⟨same, later⟩ := List.cons.inj split
            refine ⟨shared, holds.1, ?_⟩
            rw [if_pos same.symm]
            exact ih.mpr ⟨common, expected, rest, byte, later, holds.2, other⟩

theorem alignUp_aligned (address : Nat) : alignUp address = uint64 (aligned address) := by
  have below : uint64 (address + 3) < 2 ^ 64 := Nat.mod_lt _ (by decide)
  have lowered : alignUp address = uint64 (address + 3) / 4 * 4 := and_uint64Not below (by decide : 2 ≤ 64)
  rw [lowered]
  simp only [uint64, aligned]
  omega

theorem uint64_read (read : memory.image address ≠ none) : uint64 address = address :=
  uint64_of_lt (memory.mapped address read).2

/-- Beyond the top of the address space nothing is mapped, nor at its other end. -/
theorem uint64_back (bound : address < 2 ^ 64 + 2 ^ 34) (read : memory.image (uint64 address) ≠ none) :
    uint64 address = address := by
  have mapped := (memory.mapped _ read).1
  simp only [uint64, mappedBase] at mapped ⊢
  omega

theorem compares_strings {nameoff : Nat} {equal : Bool}
    (compares : Compares memory.image regName (strings + nameoff) equal) :
    Compares memory.image regName (uint64 (uint64 strings + nameoff)) equal := by
  rwa [uint64_add, uint64_read (compares_read compares)]

theorem compares_strings_inv {nameoff : Nat} {equal : Bool} (bound : strings + nameoff < 2 ^ 64 + 2 ^ 34)
    (compares : Compares memory.image regName (uint64 (uint64 strings + nameoff)) equal) :
    Compares memory.image regName (strings + nameoff) equal := by
  rw [uint64_add] at compares
  rwa [uint64_back bound (compares_read compares)] at compares

theorem RoundAt.readable (at_ : RoundAt image stringsBase ptr flag token round) : image ptr ≠ none := by
  have word : ∃ value, Word image ptr value := by
    cases at_ with
    | beginNode isToken => exact ⟨_, isToken⟩
    | endNode isToken => exact ⟨_, isToken⟩
    | found isToken => exact ⟨_, isToken⟩
    | skipped isToken => exact ⟨_, isToken⟩
    | nop isToken => exact ⟨_, isToken⟩
    | stop isToken => exact ⟨_, isToken⟩
  obtain ⟨value, word⟩ := word
  exact word.holds.readable (Nat.le_refl _) (by rw [bigEndian32_length]; omega)

/-- Complete items are walked. -/
theorem Complete.walk (complete : Complete memory.image strings address flag) :
    ∃ log found, Walk memory.image (uint64 strings) (uint64 address) flag log found := by
  have here {address value : Nat} (token : Word memory.image address value) : uint64 address = address :=
    uint64_read (token.holds.readable (Nat.le_refl _) (by rw [bigEndian32_length]; omega))
  induction complete with
  | beginNode token string _ ih =>
      obtain ⟨log, found, walk⟩ := ih
      rw [← alignUp_aligned] at walk
      rw [here token]
      exact ⟨_, _, .more (.beginNode token string) walk⟩
  | endNode token _ ih =>
      obtain ⟨log, found, walk⟩ := ih
      rw [here token]
      exact ⟨_, _, .more (.endNode token) walk⟩
  | @prop address length nameoff inMemory token hasLength hasNameoff notReg _ ih =>
      obtain ⟨log, found, walk⟩ := ih
      rw [← alignUp_aligned] at walk
      have skipped : inMemory = false ∨ ∃ equal,
          Compares memory.image regName (uint64 (uint64 strings + nameoff)) equal ∧
            (equal = false ∨ length < 16) := by
        cases inMemory with
        | false => exact .inl rfl
        | true =>
            rcases notReg rfl with differs | ⟨isReg, short⟩
            · exact .inr ⟨false, compares_strings (compares_false_iff.mpr differs), .inl rfl⟩
            · exact .inr ⟨true, compares_strings (compares_true_iff.mpr isReg), .inr short⟩
      rw [here token]
      exact ⟨_, _, .more (.skipped token hasLength hasNameoff skipped) walk⟩
  | nop token _ ih =>
      obtain ⟨log, found, walk⟩ := ih
      rw [here token]
      exact ⟨_, _, .more (.nop token) walk⟩
  | @reg address length nameoff data token hasLength hasNameoff isReg wide cells holds =>
      have lengths : (data.take 8).length = 8 ∧ (data.drop 8).length = 8 := by
        rw [List.length_take, List.length_drop]
        omega
      rw [← List.take_append_drop 8 data] at holds
      rw [here token]
      exact ⟨_, _, .done (.found token hasLength hasNameoff rfl
        (compares_strings (compares_true_iff.mpr isReg)) wide lengths holds)⟩
  | last token unknown =>
      rw [here token]
      exact ⟨_, _, .done (.stop token unknown)⟩

/-- And what is walked is complete. -/
theorem Walk.complete (walk : Walk memory.image (uint64 strings) ptr flag log found)
    (low : strings < 2 ^ 64 + 2 ^ 32) (start : ptr = uint64 address) (bound : address < 2 ^ 64 + 2 ^ 33) :
    Complete memory.image strings address flag := by
  have names {nameoff : Nat} (fits : nameoff < 2 ^ 32) : strings + nameoff < 2 ^ 64 + 2 ^ 34 := by omega
  induction walk generalizing address with
  | done round =>
      have here : uint64 address = address := uint64_back (by omega) (start ▸ round.readable)
      rw [start, here] at round
      cases round with
      | found token hasLen hasNameoff inside isReg wide lengths reg =>
          subst inside
          have sixteen := List.length_append.trans (congrArg₂ (· + ·) lengths.1 lengths.2)
          exact .reg token hasLen hasNameoff
            (compares_true_iff.mp (compares_strings_inv (names hasNameoff.fits) isReg)) wide sixteen reg
      | stop token unknown => exact .last token unknown
  | more round _ ih =>
      have here : uint64 address = address := uint64_back (by omega) (start ▸ round.readable)
      have top : address < 2 ^ 64 := here ▸ Nat.mod_lt _ (by decide)
      rw [start, here] at round
      cases round with
      | beginNode token string =>
          have short := (string_bounds string).2
          exact .beginNode token string (ih (alignUp_aligned _) (by simp only [aligned]; omega))
      | endNode token => exact .endNode token (ih rfl (by omega))
      | skipped token hasLen hasNameoff noReg =>
          have short := hasLen.fits
          refine .prop token hasLen hasNameoff (fun inMemory => ?_)
            (ih (alignUp_aligned _) (by simp only [aligned]; omega))
          rcases noReg with outside | ⟨equal, compares, noReg⟩
          · exact absurd (outside.symm.trans inMemory) Bool.false_ne_true
          · have compares := compares_strings_inv (names hasNameoff.fits) compares
            cases equal with
            | false => exact .inl (compares_false_iff.mp compares)
            | true => exact .inr ⟨compares_true_iff.mp compares, noReg.resolve_left (by decide)⟩
      | nop token => exact .nop token (ih rfl (by omega))

theorem RoundAt.of_nop (at_ : RoundAt image stringsBase ptr flag token round)
    (isNop : Word image ptr FDT_NOP) : round = .more (uint64 (ptr + 4)) flag := by
  cases at_ with
  | beginNode isToken => cases isNop.unique isToken
  | endNode isToken => cases isNop.unique isToken
  | found isToken => cases isNop.unique isToken
  | skipped isToken => cases isNop.unique isToken
  | nop => rfl
  | stop isToken unknown => exact absurd (isToken.unique isNop) unknown.2.2.2

/-- The walk stays inside exactly the blobs that are complete. -/
theorem staysInside_iff (totalsize : Word memory.image (dtb + fdtTotalsize) size) :
    StaysInside memory dtb size ↔ CompleteBlob memory dtb size := by
  have start : dtb + 8 ≤ 2 ^ 64 := totalsize.end_le
  have le : Image.Le (blobOnly memory dtb size).image memory.image := Image.within_le _ _ _
  constructor
  · intro inside
    obtain ⟨log, found, _, returns⟩ := inside
    obtain ⟨structOffset, stringsOffset, hasStruct, hasStrings, walk⟩ := extractMemoryInfo_iff.mp returns
    have hasStruct := (word_uint64 start).mp hasStruct
    have hasStrings := (word_uint64 hasStruct.end_le).mp hasStrings
    have structBound := hasStruct.fits
    have stringsBound := hasStrings.fits
    exact ⟨structOffset, stringsOffset, hasStruct, hasStrings,
      walk.complete (by omega) rfl (by omega)⟩
  · intro complete
    obtain ⟨structOffset, stringsOffset, hasStruct, hasStrings, complete⟩ := complete
    obtain ⟨log, found, walk⟩ := complete.walk
    have hasStrings := (word_uint64 hasStruct.end_le).mpr hasStrings
    have hasStruct := (word_uint64 start).mpr hasStruct
    exact ⟨log, found, extractMemoryInfo_iff.mpr ⟨structOffset, stringsOffset, hasStruct.mono le,
      hasStrings.mono le, walk.mono le⟩, extractMemoryInfo_iff.mpr ⟨structOffset, stringsOffset,
      hasStruct, hasStrings, walk⟩⟩

/-! A blob that is complete, and one that is not. -/

/-- Memory in which nothing but these bytes can be read. -/
def memoryOf (start : Nat) (bytes : List UInt8) (low : mappedBase ≤ start)
    (high : start + bytes.length ≤ 2 ^ 64) : KernelMemory where
  image := Image.ofBytes start bytes
  mapped address read := by
    obtain ⟨lower, upper⟩ := Image.ofBytes_inside read
    omega

/-- The first four words of `struct fdt_header`. -/
def fdtHeader (totalsize structOffset stringsOffset : Nat) : List UInt8 :=
  bigEndian32 FDT_MAGIC ++ bigEndian32 totalsize ++ bigEndian32 structOffset ++
    bigEndian32 stringsOffset

/-- Where QEMU puts the tree. -/
def dtbAddress : Nat := 0xFFFFFFFFC2200000

theorem dtbAddress_mapped : mappedBase ≤ dtbAddress := by decide

/-- A node `memory` with a property `eg`, a `FDT_NOP` and a property `reg`, and the strings block. -/
def nodeBytes : List UInt8 :=
  fdtHeader 80 16 76 ++ bigEndian32 FDT_BEGIN_NODE ++ (memoryName ++ [0, 0]) ++
    (bigEndian32 FDT_PROP ++ bigEndian32 4 ++ bigEndian32 1 ++ bigEndian32 FDT_END) ++
    bigEndian32 FDT_NOP ++
    (bigEndian32 FDT_PROP ++ bigEndian32 16 ++ bigEndian32 0 ++ bigEndian32 0 ++
      bigEndian32 0x80000000 ++ bigEndian32 0 ++ bigEndian32 0x8000000) ++ (regName ++ [0])

def nodeBlob : KernelMemory :=
  memoryOf dtbAddress nodeBytes dtbAddress_mapped (by decide)

theorem nodeBlob_holds {bytes : List UInt8} {offset : Nat} (inside : offset ≤ 80)
    (isPrefix : bytes <+: nodeBytes.drop offset) :
    (blobOnly nodeBlob dtbAddress 80).image.Holds (dtbAddress + offset) bytes := by
  have all : nodeBlob.image.Holds dtbAddress nodeBytes := Image.ofBytes_holds _ _
  have short := isPrefix.length_le
  have size : nodeBytes.length = 80 := by decide
  rw [List.length_drop, size] at short
  exact ((all.drop offset).shorten isPrefix).within (by omega) (by omega)

theorem nodeBlob_word (offset value : Nat)
    (stored : offset ≤ 80 ∧ value < 2 ^ 32 ∧ bigEndian32 value <+: nodeBytes.drop offset) :
    Word (blobOnly nodeBlob dtbAddress 80).image (dtbAddress + offset) value :=
  ⟨stored.2.1, nodeBlob_holds stored.1 stored.2.2⟩

theorem nodeBlob_inside : StaysInside nodeBlob dtbAddress 80 := by
  have totalsize := (nodeBlob_word 4 80 (by decide)).mono (Image.within_le _ _ _)
  refine (staysInside_iff totalsize).mpr
    ⟨16, 76, nodeBlob_word 8 16 (by decide), nodeBlob_word 12 76 (by decide), ?_⟩
  have name : StringAt (blobOnly nodeBlob dtbAddress 80).image (dtbAddress + 20) memoryName :=
    ⟨nodeBlob_holds (by decide) (by decide), memoryName_noZero⟩
  have behindName : aligned (dtbAddress + 20 + memoryName.length + 1) = dtbAddress + 28 := by decide
  refine .beginNode (nodeBlob_word 16 FDT_BEGIN_NODE (by decide)) name ?_
  rw [behindName]
  have differs : Differs (blobOnly nodeBlob dtbAddress 80).image (regName ++ [0]) (dtbAddress + 77) :=
    ⟨[], 114, [101, 103, 0], 101, rfl, nodeBlob_holds (by decide) (by decide), by decide⟩
  have behindProperty : aligned (dtbAddress + 28 + 12 + 4) = dtbAddress + 44 := by decide
  refine .prop (nodeBlob_word 28 FDT_PROP (by decide)) (nodeBlob_word 32 4 (by decide))
    (nodeBlob_word 36 1 (by decide)) (fun _ => .inl differs) ?_
  rw [behindProperty]
  refine .nop (nodeBlob_word 44 FDT_NOP (by decide)) ?_
  have cells := nodeBlob_holds (by decide : 60 ≤ 80) (List.take_prefix 16 (nodeBytes.drop 60))
  exact .reg (nodeBlob_word 48 FDT_PROP (by decide)) (nodeBlob_word 52 16 (by decide))
    (nodeBlob_word 56 0 (by decide)) (nodeBlob_holds (by decide : 76 ≤ 80) (by decide)) (by decide)
    (by decide) cells

/-- A header, a `FDT_NOP` and a `FDT_END`. -/
def nopBlob (totalsize : Nat) : KernelMemory :=
  memoryOf dtbAddress (fdtHeader totalsize 16 16 ++ bigEndian32 FDT_NOP ++ bigEndian32 FDT_END)
    dtbAddress_mapped (by simp [fdtHeader, bigEndian32, dtbAddress])

theorem nopBlob_words (fits : size < 2 ^ 32) :
    Word (nopBlob size).image dtbAddress FDT_MAGIC ∧
      Word (nopBlob size).image (dtbAddress + 4) size ∧
      Word (nopBlob size).image (dtbAddress + 8) 16 ∧
      Word (nopBlob size).image (dtbAddress + 12) 16 ∧
      Word (nopBlob size).image (dtbAddress + 16) FDT_NOP ∧
      Word (nopBlob size).image (dtbAddress + 20) FDT_END := by
  have all : (nopBlob size).image.Holds dtbAddress _ := Image.ofBytes_holds _ _
  simp only [fdtHeader, Image.holds_append, List.length_append, bigEndian32_length] at all
  obtain ⟨⟨⟨⟨⟨magic, total⟩, struct⟩, strings⟩, nop⟩, stop⟩ := all
  exact ⟨⟨by decide, magic⟩, ⟨fits, total⟩, ⟨by decide, struct⟩, ⟨by decide, strings⟩,
    ⟨by decide, nop⟩, ⟨by decide, stop⟩⟩

theorem Word.inBlob {address value : Nat} (word : Word memory.image address value) (low : dtb ≤ address)
    (high : address + 4 ≤ dtb + size) : Word (blobOnly memory dtb size).image address value :=
  ⟨word.fits, word.holds.within low (by rwa [bigEndian32_length])⟩

/-- Without the end token in the blob the walk reads on behind it. -/
theorem nopBlob_left : Word (nopBlob 20).image dtbAddress FDT_MAGIC ∧
    Word (nopBlob 20).image (dtbAddress + fdtTotalsize) 20 ∧
    ¬ StaysInside (nopBlob 20) dtbAddress 20 := by
  obtain ⟨magic, totalsize, struct, strings, nop, _⟩ := nopBlob_words (by decide : 20 < 2 ^ 32)
  refine ⟨magic, totalsize, fun inside => ?_⟩
  obtain ⟨log, found, _, returns⟩ := inside
  obtain ⟨structOffset, _, hasStruct, _, walk⟩ := extractMemoryInfo_iff.mp returns
  have le : Image.Le (blobOnly (nopBlob 20) dtbAddress 20).image (nopBlob 20).image :=
    Image.within_le _ _ _
  have field : uint64 (dtbAddress + fdtOffDtStruct) = dtbAddress + 8 := uint64_of_lt (by decide)
  rw [field] at hasStruct
  have offset : structOffset = 16 := (hasStruct.mono le).unique struct
  have start : uint64 (dtbAddress + 16) = dtbAddress + 16 := uint64_of_lt (by decide)
  have next : uint64 (dtbAddress + 16 + 4) = dtbAddress + 20 := uint64_of_lt (by decide)
  rw [offset, start] at walk
  have isNop : Word (blobOnly (nopBlob 20) dtbAddress 20).image (dtbAddress + 16) FDT_NOP :=
    nop.inBlob (by omega) (by omega)
  have unreadable : (blobOnly (nopBlob 20) dtbAddress 20).image (dtbAddress + 20) = none := by
    simp only [blobOnly, Image.within]
    exact if_neg (by omega)
  cases walk with
  | done round => cases round.of_nop isNop
  | more round rest =>
      have step := round.of_nop isNop
      rw [next] at step
      cases step
      cases rest with
      | done round => exact round.readable unreadable
      | more round => exact round.readable unreadable

end Ucore.Driver.Dtb
