import Ucore.Driver.Dtb.Rounds

namespace Ucore.Driver.Dtb

open Ucore.Data Ucore.Libs Ucore.Mm

/-! The walk as a relation on the bytes that can be read. -/

variable {memory : KernelMemory} {image other : Image} {stringsBase ptr dtbVaddr header fuel : Nat}
  {flag : Bool} {token : Token} {round : Round} {log : List (Nat × Token)} {found : Option (Nat × Nat)}

inductive Walk (image : Image) (stringsBase : Nat) :
    (ptr : Nat) → (flag : Bool) → List (Nat × Token) → Option (Nat × Nat) → Prop where
  | done {ptr : Nat} {flag : Bool} {token : Token} {found : Option (Nat × Nat)}
      (round : RoundAt image stringsBase ptr flag token (.done found)) :
      Walk image stringsBase ptr flag [(ptr, token)] found
  | more {ptr next : Nat} {flag flag' : Bool} {token : Token} {log : List (Nat × Token)}
      {found : Option (Nat × Nat)}
      (round : RoundAt image stringsBase ptr flag token (.more next flag'))
      (rest : Walk image stringsBase next flag' log found) :
      Walk image stringsBase ptr flag ((ptr, token) :: log) found

theorem compares_mono {s2 : List UInt8} {address : Nat} {equal : Bool}
    (compares : Compares image s2 address equal) (le : Image.Le image other) :
    Compares other s2 address equal := by
  induction s2 generalizing address with
  | nil =>
      obtain ⟨byte, read, same⟩ := compares
      exact ⟨byte, le _ _ read, same⟩
  | cons constant s2 ih =>
      obtain ⟨byte, read, onward⟩ := compares
      refine ⟨byte, le _ _ read, ?_⟩
      split
      · rename_i same
        rw [if_pos same] at onward
        exact ih onward
      · rename_i different
        rwa [if_neg different] at onward

theorem RoundAt.mono (at_ : RoundAt image stringsBase ptr flag token round)
    (le : Image.Le image other) : RoundAt other stringsBase ptr flag token round := by
  cases at_ with
  | beginNode isToken string =>
      exact .beginNode (isToken.mono le) ⟨string.holds.mono le, string.noZero⟩
  | endNode isToken => exact .endNode (isToken.mono le)
  | found isToken hasLen hasNameoff inside isReg wide lengths reg =>
      exact .found (isToken.mono le) (hasLen.mono le) (hasNameoff.mono le) inside
        (compares_mono isReg le) wide lengths (reg.mono le)
  | skipped isToken hasLen hasNameoff noReg =>
      refine .skipped (isToken.mono le) (hasLen.mono le) (hasNameoff.mono le) ?_
      rcases noReg with outside | ⟨equal, compares, noReg⟩
      · exact .inl outside
      · exact .inr ⟨equal, compares_mono compares le, noReg⟩
  | nop isToken => exact .nop (isToken.mono le)
  | stop isToken unknown => exact .stop (isToken.mono le) unknown

theorem Walk.mono (walk : Walk image stringsBase ptr flag log found) (le : Image.Le image other) :
    Walk other stringsBase ptr flag log found := by
  induction walk with
  | done round => exact .done (round.mono le)
  | more round _ ih => exact .more (round.mono le) ih

/-! The loop computes the walk. -/

theorem extractLoop_returns (walk : Walk memory.image stringsBase ptr flag log found) :
    Returns (fun fuel => extractLoop memory stringsBase fuel ptr flag) (log, found) := by
  induction walk with
  | done round =>
      obtain ⟨enough, first⟩ := extractRound_returns round
      exact Returns.round ⟨enough, fun fuel more => bind_eq_ok.mpr ⟨_, first fuel more, rfl⟩⟩
  | more round _ ih =>
      obtain ⟨enough, first⟩ := extractRound_returns round
      obtain ⟨enoughRest, rest⟩ := ih
      refine Returns.round ⟨max enough enoughRest, fun fuel more => ?_⟩
      obtain ⟨moreFirst, moreRest⟩ := Nat.max_le.mp more
      exact bind_eq_ok.mpr ⟨_, first fuel moreFirst, bind_eq_ok.mpr ⟨_, rest fuel moreRest, rfl⟩⟩

theorem extractLoop_inv
    (result : extractLoop memory stringsBase fuel ptr flag = .ok (log, found)) :
    Walk memory.image stringsBase ptr flag log found := by
  induction fuel generalizing ptr flag log found with
  | zero => cases result
  | succ fuel ih =>
      obtain ⟨⟨token, round⟩, first, result⟩ := bind_eq_ok.mp result
      have at_ := extractRound_inv first
      cases round with
      | done answer =>
          cases result
          exact .done at_
      | more next flag' =>
          obtain ⟨⟨later, answer⟩, rest, result⟩ := bind_eq_ok.mp result
          cases result
          exact .more at_ (ih rest)

/-- The header tells where the walk begins. -/
theorem extractMemoryInfo_iff : Returns (extractMemoryInfo memory dtbVaddr header) (log, found) ↔
    ∃ structOffset stringsOffset,
      Word memory.image (uint64 (header + fdtOffDtStruct)) structOffset ∧
      Word memory.image (uint64 (header + fdtOffDtStrings)) stringsOffset ∧
      Walk memory.image (uint64 (dtbVaddr + stringsOffset)) (uint64 (dtbVaddr + structOffset)) false
        log found := by
  constructor
  · intro returns
    obtain ⟨fuel, result⟩ := returns.some_fuel
    obtain ⟨structOffset, hasStruct, result⟩ := bind_eq_ok.mp result
    obtain ⟨stringsOffset, hasStrings, result⟩ := bind_eq_ok.mp result
    exact ⟨structOffset, stringsOffset, loadFdt32_inv hasStruct, loadFdt32_inv hasStrings,
      extractLoop_inv result⟩
  · intro walked
    obtain ⟨structOffset, stringsOffset, hasStruct, hasStrings, walk⟩ := walked
    obtain ⟨enough, returns⟩ := extractLoop_returns walk
    exact ⟨enough, fun fuel more => bind_eq_ok.mpr ⟨_, loadFdt32_word hasStruct,
      bind_eq_ok.mpr ⟨_, loadFdt32_word hasStrings, returns fuel more⟩⟩⟩

/-! What `dtb_init` saves. -/

/-- The saved memory after a walk. -/
def saved (info : MemoryInfo) : Option (Nat × Nat) → MemoryInfo
  | some (memBase, memSize) => ⟨memBase, memSize⟩
  | none => info

theorem dtbInit_returns {bootDtb : Nat} {info : MemoryInfo} (present : bootDtb ≠ 0)
    (magic : Word memory.image (uint64 (bootDtb + PHYSICAL_MEMORY_OFFSET)) FDT_MAGIC)
    (returns : Returns (extractMemoryInfo memory (uint64 (bootDtb + PHYSICAL_MEMORY_OFFSET))
      (uint64 (bootDtb + PHYSICAL_MEMORY_OFFSET))) (log, found)) :
    Returns (dtbInit memory info bootDtb) (saved info found) := by
  obtain ⟨enough, walked⟩ := returns
  refine ⟨enough, fun fuel more => ?_⟩
  rw [dtbInit, if_neg present]
  refine bind_eq_ok.mpr ⟨_, loadFdt32_word magic, ?_⟩
  rw [if_neg (not_not.mpr rfl)]
  refine bind_eq_ok.mpr ⟨_, walked fuel more, ?_⟩
  cases found with
  | none => rfl
  | some reg => rfl

theorem dtbInit_refuses {bootDtb : Nat} {info : MemoryInfo} (refused : bootDtb = 0 ∨ ∃ magic,
    Word memory.image (uint64 (bootDtb + PHYSICAL_MEMORY_OFFSET)) magic ∧ magic ≠ FDT_MAGIC) :
    Returns (dtbInit memory info bootDtb) info := by
  refine Returns.of_constant fun fuel => ?_
  rw [dtbInit]
  by_cases absent : bootDtb = 0
  · rw [if_pos absent]
  · obtain ⟨magic, word, different⟩ := refused.resolve_left absent
    rw [if_neg absent]
    refine bind_eq_ok.mpr ⟨_, loadFdt32_word word, ?_⟩
    rw [if_pos different]

end Ucore.Driver.Dtb
