import Mathlib.Algebra.Group.Nat.Defs

namespace Ucore.Data

/-! Byte memory and the little-endian words in it. -/

abbrev Bytes := Nat → UInt8

namespace Bytes

variable {bytes other : Bytes} {address place width count value : Nat}

/-- The little-endian word of this many bytes at the address. -/
def load (bytes : Bytes) (address : Nat) : (width : Nat) → Nat
  | 0 => 0
  | width + 1 => (bytes address).toNat + 256 * load bytes (address + 1) width

def store (bytes : Bytes) (address width value : Nat) : Bytes := fun place =>
  if address ≤ place ∧ place < address + width then
    UInt8.ofNat (value / 256 ^ (place - address))
  else
    bytes place

def fill (bytes : Bytes) (address : Nat) (byte : UInt8) (count : Nat) : Bytes := fun place =>
  if address ≤ place ∧ place < address + count then byte else bytes place

theorem load_lt (bytes : Bytes) (address width : Nat) : load bytes address width < 256 ^ width := by
  induction width generalizing address with
  | zero => exact Nat.one_pos
  | succ width ih =>
      have rest := ih (address + 1)
      have byte := (bytes address).toNat_lt
      rw [load, Nat.pow_succ]
      omega

theorem load_congr (same : ∀ place, address ≤ place → place < address + width →
    other place = bytes place) : load other address width = load bytes address width := by
  induction width generalizing address with
  | zero => rfl
  | succ width ih =>
      have first := same address (Nat.le_refl _) (by omega)
      have rest := @ih (address + 1) fun place low high => same place (by omega) (by omega)
      rw [load, load, first, rest]

theorem store_outside (outside : ¬ (address ≤ place ∧ place < address + width)) :
    store bytes address width value place = bytes place :=
  if_neg outside

theorem fill_outside {byte : UInt8} (outside : ¬ (address ≤ place ∧ place < address + count)) :
    fill bytes address byte count place = bytes place :=
  if_neg outside

theorem store_succ : ∀ place, address + 1 ≤ place → place < address + 1 + width →
    store bytes address (width + 1) value place = store bytes (address + 1) width (value / 256) place := by
  intro place low high
  rw [store, if_pos (by omega), store, if_pos ⟨low, high⟩, Nat.div_div_eq_div_mul,
    ← Nat.pow_succ']
  congr 3
  omega

theorem load_store (bytes : Bytes) (address width value : Nat) :
    load (store bytes address width value) address width = value % 256 ^ width := by
  induction width generalizing address value bytes with
  | zero => rw [load, Nat.pow_zero, Nat.mod_one]
  | succ width ih =>
      have first : (store bytes address (width + 1) value address).toNat = value % 256 := by
        rw [store, if_pos (by omega), Nat.sub_self, Nat.pow_zero, Nat.div_one]
        exact UInt8.toNat_ofNat' ..
      rw [load, first, load_congr store_succ, ih, Nat.pow_succ', Nat.mod_mul]

theorem load_store_of_lt (fits : value < 256 ^ width) :
    load (store bytes address width value) address width = value := by
  rw [load_store, Nat.mod_eq_of_lt fits]

theorem load_store_apart (apart : address + width ≤ place ∨ place + count ≤ address) :
    load (store bytes address width value) place count = load bytes place count := by
  apply load_congr
  intro at_ low high
  apply store_outside
  omega

end Bytes

end Ucore.Data
