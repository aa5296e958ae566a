import Mathlib.Data.Nat.Digits.Lemmas

namespace Ucore.Data

/-! Numerals: the digits of a number, the most significant one first. -/

/-- At least one digit, and no zero in front of another. -/
def numeral (base number : Nat) : List Nat :=
  if number = 0 then [0] else (Nat.digits base number).reverse

variable {base number digit : Nat}

theorem numeral_of_lt (small : number < base) : numeral base number = [number] := by
  rw [numeral]
  split
  · rename_i zero
    rw [zero]
  · rename_i positive
    rw [Nat.digits_of_lt base number positive small, List.reverse_singleton]

theorem numeral_of_le (isBase : 1 < base) (large : base ≤ number) :
    numeral base number = numeral base (number / base) ++ [number % base] := by
  have positive : 0 < number := by omega
  have more : 0 < number / base := Nat.div_pos large (by omega)
  rw [numeral, numeral, if_neg positive.ne', if_neg more.ne',
    Nat.digits_def' isBase positive, List.reverse_cons]

theorem numeral_induction {motive : Nat → Prop} (isBase : 1 < base)
    (one : ∀ number, number < base → motive number)
    (more : ∀ number, base ≤ number → motive (number / base) → motive number) (number : Nat) :
    motive number := by
  induction number using Nat.strong_induction_on with
  | _ number ih =>
      rcases Nat.lt_or_ge number base with small | large
      · exact one number small
      · exact more number large (ih _ (Nat.div_lt_self (by omega) isBase))

theorem numeral_ne_nil (isBase : 1 < base) (number : Nat) : numeral base number ≠ [] := by
  rcases Nat.lt_or_ge number base with small | large
  · rw [numeral_of_lt small]
    exact List.cons_ne_nil _ _
  · rw [numeral_of_le isBase large]
    exact List.append_ne_nil_of_right_ne_nil _ (List.cons_ne_nil _ _)

theorem numeral_lt (isBase : 1 < base) (member : digit ∈ numeral base number) : digit < base := by
  rw [numeral] at member
  split at member
  · rw [List.mem_singleton.mp member]
    omega
  · exact Nat.digits_lt_base isBase (List.mem_reverse.mp member)

theorem numeral_foldl (isBase : 1 < base) (number : Nat) :
    (numeral base number).foldl (fun value digit => value * base + digit) 0 = number := by
  induction number using numeral_induction isBase with
  | one number small => simp [numeral_of_lt small]
  | more number large ih =>
      rw [numeral_of_le isBase large, List.foldl_append, ih, List.foldl_cons, List.foldl_nil,
        Nat.mul_comm]
      exact Nat.div_add_mod number base

theorem numeral_head (isBase : 1 < base) (positive : 0 < number) :
    ∃ first rest, numeral base number = first :: rest ∧ 0 < first := by
  induction number using numeral_induction isBase with
  | one number small => exact ⟨number, [], numeral_of_lt small, positive⟩
  | more number large ih =>
      obtain ⟨first, rest, split, nonzero⟩ := ih (Nat.div_pos large (by omega))
      exact ⟨first, rest ++ [number % base], by rw [numeral_of_le isBase large, split]; rfl, nonzero⟩

theorem numeral_length_le {count : Nat} (isBase : 1 < base) (bound : number < base ^ count)
    (some : 0 < count) : (numeral base number).length ≤ count := by
  rw [numeral]
  split
  · exact some
  · rw [List.length_reverse]
    exact (Nat.digits_length_le_iff isBase number).mpr bound

/-- These digits write the number: there is one, all are below the base, and no zero is in front of
another digit. -/
structure IsNumeral (base number : Nat) (digits : List Nat) : Prop where
  value : digits.foldl (fun value digit => value * base + digit) 0 = number
  small : ∀ digit ∈ digits, digit < base
  nonempty : digits ≠ []
  noZero : digits.head? = some 0 → digits.length = 1

theorem numeral_isNumeral (isBase : 1 < base) (number : Nat) :
    IsNumeral base number (numeral base number) where
  value := numeral_foldl isBase number
  small _ := numeral_lt isBase
  nonempty := numeral_ne_nil isBase number
  noZero leading := by
    rcases Nat.eq_zero_or_pos number with zero | positive
    · rw [zero, numeral, if_pos rfl, List.length_singleton]
    · obtain ⟨first, rest, split, nonzero⟩ := numeral_head isBase positive
      rw [split, List.head?_cons] at leading
      cases leading
      exact absurd nonzero (Nat.lt_irrefl 0)

/-- A number is written in one way only, by induction from the last digit. -/
theorem IsNumeral.unique {digits : List Nat} (isBase : 1 < base)
    (isNumeral : IsNumeral base number digits) : digits = numeral base number := by
  induction digits using List.reverseRecOn generalizing number with
  | nil => exact absurd rfl isNumeral.nonempty
  | append_singleton front last ih =>
      have small : last < base := isNumeral.small last (by simp)
      have value := isNumeral.value
      rw [List.foldl_append, List.foldl_cons, List.foldl_nil] at value
      cases front with
      | nil =>
          rw [List.foldl_nil, Nat.zero_mul, Nat.zero_add] at value
          rw [List.nil_append, ← value, numeral_of_lt small]
      | cons first front =>
          have leading : first ≠ 0 := fun zero => by
            have one := isNumeral.noZero (by rw [zero]; rfl)
            simp at one
          have same : first :: front = numeral base
              ((first :: front).foldl (fun value digit => value * base + digit) 0) := ih {
            value := rfl
            small := fun digit member => isNumeral.small digit (List.mem_append_left _ member)
            nonempty := List.cons_ne_nil _ _
            noZero := fun zero => absurd (Option.some.inj zero) leading }
          generalize (first :: front).foldl (fun value digit => value * base + digit) 0 = higher
            at value same
          have positive : 0 < higher := Nat.pos_of_ne_zero fun zero => by
            rw [zero, numeral, if_pos rfl] at same
            exact leading (List.cons.inj same).1
          have quotient : number / base = higher := by
            rw [← value, Nat.mul_comm, Nat.mul_add_div (by omega), Nat.div_eq_of_lt small, Nat.add_zero]
          have remainder : number % base = last := by
            rw [← value, Nat.mul_comm, Nat.mul_add_mod, Nat.mod_eq_of_lt small]
          have large : base ≤ number := by
            rw [← value]
            exact (Nat.le_mul_of_pos_left base positive).trans (Nat.le_add_right _ _)
          rw [numeral_of_le isBase large, quotient, remainder, same]

end Ucore.Data
