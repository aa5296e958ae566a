import Ucore.Driver.Dtb.Words

namespace Ucore.Driver.Dtb

open Ucore.Data Ucore.Libs Ucore.Mm

/-! What a round of the loop reads, and where it leads. -/

variable {memory : KernelMemory} {image other : Image} {stringsBase ptr fuel : Nat} {flag : Bool}
  {token : Token} {round : Round} {name : List UInt8}

/-- `(address + 3) & ~3`. -/
def alignUp (address : Nat) : Nat := uint64 (address + 3) &&& uint64Not 3

/-- A round at `ptr` over the bytes of this image. -/
inductive RoundAt (image : Image) (stringsBase ptr : Nat) (flag : Bool) : Token → Round → Prop where
  | beginNode {name : List UInt8} (isToken : Word image ptr FDT_BEGIN_NODE)
      (string : StringAt image (ptr + 4) name) :
      RoundAt image stringsBase ptr flag (.beginNode (ptr + 4) name.length)
        (.more (alignUp (ptr + 4 + name.length + 1)) (flag || decide (memoryName <+: name)))
  | endNode (isToken : Word image ptr FDT_END_NODE) :
      RoundAt image stringsBase ptr flag .endNode (.more (uint64 (ptr + 4)) false)
  | found {propLen propNameoff : Nat} {first second : List UInt8} (isToken : Word image ptr FDT_PROP)
      (hasLen : Word image (ptr + 4) propLen) (hasNameoff : Word image (ptr + 8) propNameoff)
      (inside : flag = true) (isReg : Compares image regName (uint64 (stringsBase + propNameoff)) true)
      (wide : 16 ≤ propLen) (lengths : first.length = 8 ∧ second.length = 8)
      (reg : image.Holds (ptr + 12) (first ++ second)) :
      RoundAt image stringsBase ptr flag (.prop propLen propNameoff (uint64 (ptr + 12)))
        (.done (some (fromBigEndian first, fromBigEndian second)))
  | skipped {propLen propNameoff : Nat} (isToken : Word image ptr FDT_PROP)
      (hasLen : Word image (ptr + 4) propLen) (hasNameoff : Word image (ptr + 8) propNameoff)
      (noReg : flag = false ∨ ∃ equal,
        Compares image regName (uint64 (stringsBase + propNameoff)) equal ∧
          (equal = false ∨ propLen < 16)) :
      RoundAt image stringsBase ptr flag (.prop propLen propNameoff (uint64 (ptr + 12)))
        (.more (alignUp (ptr + 12 + propLen)) flag)
  | nop (isToken : Word image ptr FDT_NOP) :
      RoundAt image stringsBase ptr flag .nop (.more (uint64 (ptr + 4)) flag)
  | stop {token : Nat} (isToken : Word image ptr token) (unknown : token ≠ FDT_BEGIN_NODE ∧
      token ≠ FDT_END_NODE ∧ token ≠ FDT_PROP ∧ token ≠ FDT_NOP) :
      RoundAt image stringsBase ptr flag (.other token) (.done none)

theorem int32_of_lt {value : Nat} (small : value < 2 ^ 31) : int32 value = value := by
  have bmod {width : Nat} (half : 2 * value < width) : Int.bmod value width = value := by
    rw [Int.bmod_eq_of_le (by omega) (by omega)]
  exact bmod (by omega)

theorem memoryName_noZero : 0 ∉ memoryName := by decide

theorem regName_noZero : 0 ∉ regName := by decide

theorem uint64_add (left right : Nat) : uint64 (uint64 left + right) = uint64 (left + right) := by
  simp only [uint64]
  omega

theorem Word.end_le {value address : Nat} (word : Word memory.image address value) :
    address + 4 ≤ 2 ^ 64 :=
  (memory.holds_le word.holds (by simp [bigEndian32])).2

theorem word_uint64 {value address : Nat} (bound : address ≤ 2 ^ 64) :
    Word memory.image (uint64 address) value ↔ Word memory.image address value := by
  constructor
  · intro word
    exact ⟨word.fits, (memory.holds_uint64 bound).mp word.holds⟩
  · intro word
    exact ⟨word.fits, (memory.holds_uint64 bound).mpr word.holds⟩

/-- A name starts below the top of the address space, and its length is an `int`. -/
theorem string_bounds (string : StringAt memory.image ptr name) :
    ptr < 2 ^ 64 ∧ name.length < 2 ^ 31 := by
  have small := string.length_lt
  have bounds := memory.holds_le string.holds (by simp)
  rw [List.length_append, List.length_singleton] at bounds
  omega

theorem flag_name {result : Int} (flag : Bool) (string : StringAt memory.image ptr name)
    (compared : strncmp memory ptr memoryName 6 = .ok result) :
    (if result = 0 then true else flag) = (flag || decide (memoryName <+: name)) := by
  obtain ⟨same, compares, zero⟩ := strncmp_spec string memoryName_noZero
  cases compared.symm.trans compares
  by_cases isMemory : memoryName <+: name
  · rw [if_pos (zero.mpr isMemory), decide_eq_true isMemory, Bool.or_true]
  · rw [if_neg fun same => isMemory (zero.mp same), decide_eq_false isMemory, Bool.or_false]

theorem name_end (string : StringAt memory.image (ptr + 4) name) :
    uint64OfInt ((uint64 (ptr + 4) : Nat) + int32 name.length + 4) &&& uint64Not 3 =
      alignUp (ptr + 4 + name.length + 1) := by
  obtain ⟨start, small⟩ := string_bounds string
  have sum : ((uint64 (ptr + 4) : Nat) : Int) + (name.length : Int) + 4 =
      ((ptr + 4 + name.length + 4 : Nat) : Int) := by
    rw [uint64_of_lt start]
    omega
  rw [int32_of_lt small, sum, uint64OfInt_natCast, alignUp]

theorem data_start (ptr : Nat) :
    uint64 (uint64 (uint64 (ptr + 4) + 4) + 4) = uint64 (ptr + 12) := by
  simp only [uint64]
  omega

theorem data_end (ptr propLen : Nat) :
    uint64 (uint64 (ptr + 12) + propLen + 3) &&& uint64Not 3 = alignUp (ptr + 12 + propLen) := by
  have sum : uint64 (uint64 (ptr + 12) + propLen + 3) = uint64 (ptr + 12 + propLen + 3) := by
    simp only [uint64]
    omega
  rw [sum, alignUp]

theorem isMemoryReg_found {propName propLen : Nat} (inside : flag = true)
    (isReg : Compares memory.image regName propName true) (wide : 16 ≤ propLen) :
    isMemoryReg memory flag propName propLen = .ok true := by
  obtain ⟨result, compared, equal⟩ := strcmp_compares isReg regName_noZero
  rw [isMemoryReg, if_pos inside]
  refine bind_eq_ok.mpr ⟨result, compared, ?_⟩
  rw [decide_eq_true ⟨of_decide_eq_true equal, wide⟩]

theorem isMemoryReg_skipped {propName propLen : Nat} (noReg : flag = false ∨ ∃ equal,
    Compares memory.image regName propName equal ∧ (equal = false ∨ propLen < 16)) :
    isMemoryReg memory flag propName propLen = .ok false := by
  rcases noReg with outside | ⟨equal, compares, noReg⟩
  · rw [isMemoryReg, if_neg (by simp [outside])]
  · obtain ⟨result, compared, same⟩ := strcmp_compares compares regName_noZero
    rw [isMemoryReg]
    split
    · refine bind_eq_ok.mpr ⟨result, compared, ?_⟩
      rw [decide_eq_false]
      intro both
      rcases noReg with different | short
      · rw [different, decide_eq_false_iff_not] at same
        exact same both.1
      · omega
    · rfl

theorem isMemoryReg_inv {propName propLen : Nat} {isReg : Bool}
    (result : isMemoryReg memory flag propName propLen = .ok isReg) :
    if isReg then flag = true ∧ Compares memory.image regName propName true ∧ 16 ≤ propLen
    else flag = false ∨ ∃ equal, Compares memory.image regName propName equal ∧
      (equal = false ∨ propLen < 16) := by
  rw [isMemoryReg] at result
  by_cases inside : flag = true
  · rw [if_pos inside] at result
    obtain ⟨compared, compares, same⟩ := bind_eq_ok.mp result
    obtain ⟨equal, readable⟩ := strcmp_inv compares regName_noZero
    obtain ⟨again, compares', zero⟩ := strcmp_compares readable regName_noZero
    have equalResult := Except.ok.inj (compares.symm.trans compares')
    subst equalResult
    cases same
    by_cases both : compared = 0 ∧ propLen ≥ 16
    · rw [decide_eq_true both.1] at zero
      rw [decide_eq_true both, if_pos rfl]
      exact ⟨inside, zero ▸ readable, both.2⟩
    · rw [decide_eq_false both, if_neg (by decide)]
      refine .inr ⟨equal, readable, ?_⟩
      by_cases different : compared = 0
      · exact .inr (Nat.not_le.mp fun wide => both ⟨different, wide⟩)
      · rw [decide_eq_false different] at zero
        exact .inl zero.symm
  · rw [if_neg inside] at result
    cases result
    exact .inl (by simpa using inside)

theorem prop_nameoff {propLen propNameoff : Nat} (hasLen : Word memory.image (ptr + 4) propLen)
    (hasNameoff : Word memory.image (ptr + 8) propNameoff) :
    loadFdt32 memory (uint64 (uint64 (ptr + 4) + 4)) = .ok propNameoff := by
  rw [uint64_add]
  exact loadFdt32_word ((word_uint64 hasLen.end_le).mpr hasNameoff)

theorem loadReg_iff {address base size : Nat} (bound : address ≤ 2 ^ 64) :
    loadFdt64 memory (uint64 address) = .ok base ∧
        loadFdt64 memory (uint64 (uint64 address + 8)) = .ok size ↔
      ∃ first second, (first.length = 8 ∧ second.length = 8) ∧
        memory.image.Holds address (first ++ second) ∧
        base = fromBigEndian first ∧ size = fromBigEndian second := by
  have middle {first : List UInt8} (length : first.length = 8)
      (holds : memory.image.Holds address first) : address + 8 ≤ 2 ^ 64 := by
    have some : first ≠ [] := by
      intro none
      rw [none] at length
      cases length
    have bounds := memory.holds_le holds some
    omega
  rw [uint64_add]
  constructor
  · intro loaded
    obtain ⟨first, firstLength, low, isBase⟩ := loadFdt64_iff.mp loaded.1
    obtain ⟨second, secondLength, high, isSize⟩ := loadFdt64_iff.mp loaded.2
    have atFirst := (memory.holds_uint64 bound).mp low
    have atSecond := (memory.holds_uint64 (middle firstLength atFirst)).mp high
    rw [← firstLength] at atSecond
    exact ⟨first, second, ⟨firstLength, secondLength⟩, Image.holds_append.mpr ⟨atFirst, atSecond⟩,
      isBase, isSize⟩
  · intro cells
    obtain ⟨first, second, lengths, holds, isBase, isSize⟩ := cells
    obtain ⟨atFirst, atSecond⟩ := Image.holds_append.mp holds
    rw [lengths.1] at atSecond
    have low := (memory.holds_uint64 bound).mpr atFirst
    have high := (memory.holds_uint64 (middle lengths.1 atFirst)).mpr atSecond
    exact ⟨loadFdt64_iff.mpr ⟨first, lengths.1, low, isBase⟩,
      loadFdt64_iff.mpr ⟨second, lengths.2, high, isSize⟩⟩

/-- A round at a property, after the test of its name. -/
theorem extractRound_prop {propLen propNameoff : Nat} {isReg : Bool}
    (isToken : Word memory.image ptr FDT_PROP) (hasLen : Word memory.image (ptr + 4) propLen)
    (hasNameoff : Word memory.image (ptr + 8) propNameoff)
    (tested : isMemoryReg memory flag (uint64 (stringsBase + propNameoff)) propLen = .ok isReg) :
    extractRound memory stringsBase ptr flag fuel =
      if isReg then do
        let memBase ← loadFdt64 memory (uint64 (ptr + 12))
        let memSize ← loadFdt64 memory (uint64 (uint64 (ptr + 12) + 8))
        .ok (.prop propLen propNameoff (uint64 (ptr + 12)), .done (some (memBase, memSize)))
      else
        .ok (.prop propLen propNameoff (uint64 (ptr + 12)), .more (alignUp (ptr + 12 + propLen)) flag) := by
  have len := loadFdt32_word ((word_uint64 isToken.end_le).mpr hasLen)
  have nameoff := prop_nameoff hasLen hasNameoff
  have notBegin : FDT_PROP ≠ FDT_BEGIN_NODE := by decide
  have notEnd : FDT_PROP ≠ FDT_END_NODE := by decide
  simp only [extractRound, loadFdt32_word isToken, len, nameoff, tested, Bind.bind, Except.bind,
    if_neg notBegin, if_neg notEnd, if_true, data_start, data_end]

theorem extractRound_returns (at_ : RoundAt memory.image stringsBase ptr flag token round) :
    Returns (extractRound memory stringsBase ptr flag) (token, round) := by
  cases at_ with
  | @beginNode name isToken string =>
      obtain ⟨enough, counted⟩ := strlen_returns string
      obtain ⟨result, compared, _⟩ := strncmp_spec string memoryName_noZero
      obtain ⟨start, small⟩ := string_bounds string
      have inside := flag_name flag string compared
      refine ⟨enough, fun fuel more => ?_⟩
      refine bind_eq_ok.mpr ⟨_, loadFdt32_word isToken, ?_⟩
      rw [if_pos rfl]
      refine bind_eq_ok.mpr ⟨_, (uint64_of_lt start).symm ▸ counted fuel more, ?_⟩
      refine bind_eq_ok.mpr ⟨_, (uint64_of_lt start).symm ▸ compared, ?_⟩
      rw [name_end string, uint64_of_lt start, int32_of_lt small, inside]
  | endNode isToken =>
      refine Returns.of_constant fun fuel => bind_eq_ok.mpr ⟨_, loadFdt32_word isToken, ?_⟩
      rw [if_neg (by decide), if_pos rfl]
  | @found propLen propNameoff first second isToken hasLen hasNameoff inside isReg wide lengths reg =>
      have start : ptr + 12 ≤ 2 ^ 64 := hasNameoff.end_le
      obtain ⟨low, high⟩ := (loadReg_iff start).mpr ⟨first, second, lengths, reg, rfl, rfl⟩
      refine Returns.of_constant fun fuel => ?_
      rw [extractRound_prop isToken hasLen hasNameoff (isMemoryReg_found inside isReg wide), if_pos rfl]
      exact bind_eq_ok.mpr ⟨_, low, bind_eq_ok.mpr ⟨_, high, rfl⟩⟩
  | @skipped propLen propNameoff isToken hasLen hasNameoff noReg =>
      refine Returns.of_constant fun fuel => ?_
      rw [extractRound_prop isToken hasLen hasNameoff (isMemoryReg_skipped noReg),
        if_neg Bool.false_ne_true]
  | nop isToken =>
      refine Returns.of_constant fun fuel => bind_eq_ok.mpr ⟨_, loadFdt32_word isToken, ?_⟩
      rw [if_neg (by decide), if_neg (by decide), if_neg (by decide), if_pos rfl]
  | stop isToken unknown =>
      obtain ⟨notBegin, notEnd, notProp, notNop⟩ := unknown
      refine Returns.of_constant fun fuel => bind_eq_ok.mpr ⟨_, loadFdt32_word isToken, ?_⟩
      rw [if_neg notBegin, if_neg notEnd, if_neg notProp, if_neg notNop]

theorem extractRound_inv (result : extractRound memory stringsBase ptr flag fuel = .ok (token, round)) :
    RoundAt memory.image stringsBase ptr flag token round := by
  obtain ⟨word, loaded, result⟩ := bind_eq_ok.mp result
  have isToken := loadFdt32_inv loaded
  by_cases isBegin : word = FDT_BEGIN_NODE
  · rw [if_pos isBegin] at result
    subst isBegin
    obtain ⟨length, counted, result⟩ := bind_eq_ok.mp result
    obtain ⟨compared, compares, result⟩ := bind_eq_ok.mp result
    obtain ⟨name, string, rfl⟩ := strlen_inv counted
    have string : StringAt memory.image (ptr + 4) name :=
      ⟨(memory.holds_uint64 isToken.end_le).mp string.holds, string.noZero⟩
    obtain ⟨start, small⟩ := string_bounds string
    rw [name_end string, int32_of_lt small] at result
    rw [uint64_of_lt start] at result compares
    rw [flag_name flag string compares] at result
    cases result
    exact .beginNode isToken string
  rw [if_neg isBegin] at result
  by_cases isEnd : word = FDT_END_NODE
  · rw [if_pos isEnd] at result
    subst isEnd
    cases result
    exact .endNode isToken
  rw [if_neg isEnd] at result
  by_cases isProp : word = FDT_PROP
  · rw [if_pos isProp] at result
    subst isProp
    obtain ⟨propLen, hasLen, result⟩ := bind_eq_ok.mp result
    obtain ⟨propNameoff, hasNameoff, result⟩ := bind_eq_ok.mp result
    obtain ⟨isReg, tested, result⟩ := bind_eq_ok.mp result
    have hasLen := (word_uint64 isToken.end_le).mp (loadFdt32_inv hasLen)
    rw [uint64_add] at hasNameoff
    have hasNameoff := (word_uint64 hasLen.end_le).mp (loadFdt32_inv hasNameoff)
    have tested := isMemoryReg_inv tested
    rw [data_start, data_end] at result
    cases isReg with
    | false =>
        cases result
        exact .skipped isToken hasLen hasNameoff tested
    | true =>
        obtain ⟨inside, compares, wide⟩ := tested
        obtain ⟨memBase, loadedBase, result⟩ := bind_eq_ok.mp result
        obtain ⟨memSize, loadedSize, result⟩ := bind_eq_ok.mp result
        have start : ptr + 12 ≤ 2 ^ 64 := hasNameoff.end_le
        obtain ⟨first, second, lengths, reg, rfl, rfl⟩ :=
          (loadReg_iff start).mp ⟨loadedBase, loadedSize⟩
        cases result
        exact .found isToken hasLen hasNameoff inside compares wide lengths reg
  rw [if_neg isProp] at result
  by_cases isNop : word = FDT_NOP
  · rw [if_pos isNop] at result
    subst isNop
    cases result
    exact .nop isToken
  · rw [if_neg isNop] at result
    cases result
    exact .stop isToken ⟨isBegin, isEnd, isProp, isNop⟩

end Ucore.Driver.Dtb
