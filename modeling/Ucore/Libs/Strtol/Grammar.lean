import Ucore.Libs.Strtol
import Mathlib.Data.Nat.Digits.Defs

namespace Ucore.Libs.Strtol

open Ucore.Data Ucore.Mm

/-! The numbers that `strtol` documents. -/

inductive Sign : List UInt8 → (negative : Bool) → Prop where
  | none : Sign [] false
  | plus : Sign ['+'.toUInt8] false
  | minus : Sign ['-'.toUInt8] true

/-- A prefix and the radix of the digits behind it. -/
inductive Radix : (base : Nat) → List UInt8 → (radix : Nat) → Prop where
  | hex {base : Nat} (allowed : base = 0 ∨ base = 16) :
      Radix base ['0'.toUInt8, 'x'.toUInt8] 16
  | upperHex {base : Nat} (allowed : base = 0 ∨ base = 16) :
      Radix base ['0'.toUInt8, 'X'.toUInt8] 16
  | octal : Radix 0 ['0'.toUInt8] 8
  | decimal : Radix 0 [] 10
  | given {base : Nat} (isGiven : base ≠ 0) : Radix base [] base

def IsDigit (radix : Nat) (c : UInt8) : Prop := ∃ dig, digitOf c = some dig ∧ dig < radix

/-- Blanks, a sign, a prefix and digits.  Without a prefix, base 0 takes no leading 0. -/
structure Parts (base : Nat) (blanks sign lead digits : List UInt8) (negative : Bool)
    (radix : Nat) : Prop where
  blank : ∀ c ∈ blanks, isBlank c = true
  isSign : Sign sign negative
  isRadix : Radix base lead radix
  isDigit : ∀ c ∈ digits, IsDigit radix c
  leading : base = 0 → lead = [] → digits.head? ≠ some '0'.toUInt8

/-- The value of the digits. -/
def valueOf (radix : Nat) (digits : List UInt8) : Nat :=
  Nat.ofDigits radix (digits.filterMap digitOf).reverse

/-- The longest number at the beginning of the string. -/
structure Longest (base : Nat) (bytes text : List UInt8) (negative : Bool) (radix : Nat)
    (digits : List UInt8) : Prop where
  number : ∃ blanks sign lead, Parts base blanks sign lead digits negative radix ∧
    text = blanks ++ sign ++ lead ++ digits
  isPrefix : text <+: bytes
  longest : ∀ blanks sign lead digits negative radix,
    Parts base blanks sign lead digits negative radix →
      blanks ++ sign ++ lead ++ digits <+: bytes →
        (blanks ++ sign ++ lead ++ digits).length ≤ text.length

/-- `strtol` consumes the longest number and returns its value. -/
def Parses (memory : KernelMemory) (s base : Nat) (bytes : List UInt8) : Prop :=
  ∃ text negative radix digits, Longest base bytes text negative radix digits ∧
    ∀ endptr, Returns (strtol memory s endptr base)
      (int64 (if negative then -(valueOf radix digits) else valueOf radix digits),
        if endptr = 0 then none else some (endptr, s + text.length))

/-- Behind blanks and a sign there is an upper-case prefix that the base allows. -/
def UpperHex (base : Nat) (bytes : List UInt8) : Prop :=
  (base = 0 ∨ base = 16) ∧ ∃ blanks sign negative, (∀ c ∈ blanks, isBlank c = true) ∧
    Sign sign negative ∧ blanks ++ sign ++ ['0'.toUInt8, 'X'.toUInt8] <+: bytes

variable {p : UInt8 → Prop} {bytes run rest taken more blanks sign lead digits : List UInt8}
  {base radix : Nat} {negative : Bool} {c : UInt8}

/-- What begins with bytes of one kind begins within the run of them. -/
theorem munch (all : ∀ c ∈ taken, p c) (stops : ∀ c, rest.head? = some c → ¬ p c)
    (isPrefix : taken ++ more <+: run ++ rest) :
    ∃ left, run = taken ++ left ∧ more <+: left ++ rest := by
  induction taken generalizing run with
  | nil => exact ⟨run, rfl, isPrefix⟩
  | cons first taken ih =>
      cases run with
      | nil =>
          obtain ⟨later, split⟩ := isPrefix
          have head : rest.head? = some first := by
            rw [List.nil_append] at split
            rw [← split]
            rfl
          exact absurd (all first (by simp)) (stops first head)
      | cons other run =>
          rw [List.cons_append, List.cons_append, List.cons_prefix_cons] at isPrefix
          obtain ⟨left, split, onward⟩ := ih (fun c member => all c (by simp [member])) isPrefix.2
          exact ⟨left, by rw [isPrefix.1, split, List.cons_append], onward⟩

/-- What the code finds: each part ends where the next byte does not belong to it. -/
structure Scanned (base : Nat) (blanks sign lead digits rest : List UInt8) (negative : Bool)
    (radix : Nat) : Prop extends Parts base blanks sign lead digits negative radix where
  blanksEnd : ∀ c, (sign ++ (lead ++ (digits ++ rest))).head? = some c → isBlank c ≠ true
  signEnd : sign = [] → ∀ c, (lead ++ (digits ++ rest)).head? = some c →
    c ≠ '+'.toUInt8 ∧ c ≠ '-'.toUInt8
  noHex : base = 0 ∨ base = 16 → lead.length < 2 →
    ¬ ['0'.toUInt8, 'x'.toUInt8] <+: lead ++ (digits ++ rest)
  digitsEnd : ∀ c, rest.head? = some c → ¬ IsDigit radix c

/-! No other number is longer. -/

theorem Radix.head (isRadix : Radix base lead radix) : lead = [] ∨ lead.head? = some '0'.toUInt8 := by
  cases isRadix with
  | hex => exact .inr rfl
  | upperHex => exact .inr rfl
  | octal => exact .inr rfl
  | decimal => exact .inl rfl
  | given => exact .inl rfl

theorem nothing_before (isRadix : Radix base lead radix) (isDigit : ∀ c ∈ digits, IsDigit radix c)
    (noDigit : digitOf c = none) (isPrefix : lead ++ digits <+: c :: rest) :
    lead = [] ∧ digits = [] := by
  rcases isRadix.head with isNil | isZero
  · subst isNil
    refine ⟨rfl, ?_⟩
    cases digits with
    | nil => rfl
    | cons first digits =>
        obtain ⟨dig, value, _⟩ := isDigit first (by simp)
        rw [List.nil_append, List.cons_prefix_cons] at isPrefix
        rw [isPrefix.1, noDigit] at value
        cases value
  · cases lead with
    | nil => cases isZero
    | cons first lead =>
        rw [List.cons_append, List.cons_prefix_cons] at isPrefix
        rw [List.head?_cons, Option.some.injEq, isPrefix.1] at isZero
        rw [isZero] at noDigit
        cases noDigit

theorem not_isDigit_x (isX : c = 'x'.toUInt8 ∨ c = 'X'.toUInt8) (bound : radix ≤ 33) :
    ¬ IsDigit radix c := by
  intro isDigit
  obtain ⟨dig, value, small⟩ := isDigit
  have isLetter : digitOf c = some 33 := by
    rcases isX with rfl | rfl <;> decide
  rw [isLetter, Option.some.injEq] at value
  omega

theorem zero_x_length (isX : c = 'x'.toUInt8 ∨ c = 'X'.toUInt8) (bound : radix ≤ 33)
    (isDigit : ∀ c ∈ digits, IsDigit radix c) (isPrefix : digits <+: '0'.toUInt8 :: c :: rest) :
    digits.length ≤ 1 := by
  match digits with
  | [] => simp
  | [_] => simp
  | first :: second :: digits =>
      rw [List.cons_prefix_cons, List.cons_prefix_cons] at isPrefix
      have second := isDigit second (by simp)
      rw [isPrefix.2.1] at second
      exact absurd second (not_isDigit_x isX bound)

theorem nothing_before_zero {other : List UInt8} (noZero : digits.head? ≠ some '0'.toUInt8)
    (isPrefix : digits <+: '0'.toUInt8 :: other) : digits = [] := by
  cases digits with
  | nil => rfl
  | cons first digits =>
      rw [List.cons_prefix_cons] at isPrefix
      exact absurd (by rw [isPrefix.1]; rfl) noZero

namespace Scanned

variable {blanks' sign' lead' digits' : List UInt8} {negative' : Bool} {radix' : Nat}

theorem digits_le (scanned : Scanned base blanks sign lead digits rest negative radix)
    (isDigit : ∀ c ∈ digits', IsDigit radix c) (isPrefix : digits' <+: digits ++ rest) :
    digits'.length ≤ digits.length := by
  rw [← List.append_nil digits'] at isPrefix
  obtain ⟨left, split, _⟩ := munch isDigit scanned.digitsEnd isPrefix
  rw [split, List.length_append]
  exact Nat.le_add_right _ _

theorem decimal_no_zero {other : List UInt8}
    (scanned : Scanned 0 blanks sign [] digits rest negative 10)
    (isPrefix : '0'.toUInt8 :: other <+: digits ++ rest) : False := by
  cases digits with
  | nil =>
      obtain ⟨more, split⟩ := isPrefix
      rw [List.nil_append, List.cons_append] at split
      refine scanned.digitsEnd '0'.toUInt8 (by rw [← split]; rfl) ⟨0, by decide, by decide⟩
  | cons first digits =>
      rw [List.cons_append, List.cons_prefix_cons] at isPrefix
      exact scanned.leading rfl rfl (by rw [← isPrefix.1]; rfl)

theorem tail_le (scanned : Scanned base blanks sign lead digits rest negative radix)
    (noUpper : base = 0 ∨ base = 16 →
      ¬ ['0'.toUInt8, 'X'.toUInt8] <+: lead ++ (digits ++ rest))
    (isRadix : Radix base lead' radix') (isDigit : ∀ c ∈ digits', IsDigit radix' c)
    (leading : base = 0 → lead' = [] → digits'.head? ≠ some '0'.toUInt8)
    (isPrefix : lead' ++ digits' <+: lead ++ (digits ++ rest)) :
    lead'.length + digits'.length ≤ lead.length + digits.length := by
  have found := scanned.isRadix
  cases isRadix with
  | hex allowed =>
      have long : ¬ lead.length < 2 := fun short =>
        scanned.noHex allowed short ((List.prefix_append _ _).trans isPrefix)
      cases found with
      | hex =>
          exact Nat.add_le_add_left
            (scanned.digits_le isDigit ((List.prefix_append_right_inj _).mp isPrefix)) _
      | upperHex => exact absurd (List.prefix_append _ _) (noUpper allowed)
      | octal => exact absurd (by decide) long
      | decimal => exact absurd (by decide) long
      | given => exact absurd (by decide) long
  | upperHex allowed => exact absurd ((List.prefix_append _ _).trans isPrefix) (noUpper allowed)
  | octal =>
      cases found with
      | hex =>
          have short := zero_x_length (.inl rfl) (by decide) (List.forall_mem_cons.mpr ⟨⟨0, by decide⟩, isDigit⟩)
            isPrefix
          simp only [List.length_cons] at short ⊢
          omega
      | upperHex => exact absurd (List.prefix_append _ _) (noUpper (.inl rfl))
      | octal =>
          exact Nat.add_le_add_left
            (scanned.digits_le isDigit ((List.prefix_append_right_inj _).mp isPrefix)) _
      | decimal => exact (scanned.decimal_no_zero isPrefix).elim
      | given isGiven => exact absurd rfl isGiven
  | decimal =>
      have noZero := leading rfl rfl
      cases found with
      | hex =>
          rw [nothing_before_zero noZero isPrefix]
          exact Nat.zero_le _
      | upperHex => exact absurd (List.prefix_append _ _) (noUpper (.inl rfl))
      | octal =>
          rw [nothing_before_zero noZero isPrefix]
          exact Nat.zero_le _
      | decimal => exact Nat.add_le_add_left (scanned.digits_le isDigit isPrefix) _
      | given isGiven => exact absurd rfl isGiven
  | given isGiven =>
      cases found with
      | hex allowed =>
          have short := zero_x_length (.inl rfl) (by omega) isDigit isPrefix
          simp only [List.length_cons, List.length_nil]
          omega
      | upperHex allowed => exact absurd (List.prefix_append _ _) (noUpper allowed)
      | octal => exact absurd rfl isGiven
      | decimal => exact absurd rfl isGiven
      | given => exact Nat.add_le_add_left (scanned.digits_le isDigit isPrefix) _

theorem sign_le (scanned : Scanned base blanks sign lead digits rest negative radix)
    (noUpper : base = 0 ∨ base = 16 →
      ¬ ['0'.toUInt8, 'X'.toUInt8] <+: lead ++ (digits ++ rest))
    (isSign : Sign sign' negative') (isRadix : Radix base lead' radix')
    (isDigit : ∀ c ∈ digits', IsDigit radix' c)
    (leading : base = 0 → lead' = [] → digits'.head? ≠ some '0'.toUInt8)
    (isPrefix : sign' ++ (lead' ++ digits') <+: sign ++ (lead ++ (digits ++ rest))) :
    sign'.length + (lead'.length + digits'.length) ≤
      sign.length + (lead.length + digits.length) := by
  have tail := scanned.tail_le noUpper isRadix isDigit leading
  have signEnd := scanned.signEnd
  have found := scanned.isSign
  cases isSign with
  | none =>
      cases found with
      | none => exact Nat.add_le_add_left (tail isPrefix) _
      | plus =>
          obtain ⟨rfl, rfl⟩ := nothing_before isRadix isDigit (by decide) isPrefix
          exact Nat.zero_le _
      | minus =>
          obtain ⟨rfl, rfl⟩ := nothing_before isRadix isDigit (by decide) isPrefix
          exact Nat.zero_le _
  | plus =>
      cases found with
      | none =>
          obtain ⟨later, split⟩ := isPrefix
          exact absurd rfl (signEnd rfl '+'.toUInt8 (by rw [← List.nil_append (lead ++ _), ← split]; rfl)).1
      | plus => exact Nat.add_le_add_left (tail (List.cons_prefix_cons.mp isPrefix).2) _
      | minus => exact absurd (List.cons_prefix_cons.mp isPrefix).1 (by decide)
  | minus =>
      cases found with
      | none =>
          obtain ⟨later, split⟩ := isPrefix
          exact absurd rfl (signEnd rfl '-'.toUInt8 (by rw [← List.nil_append (lead ++ _), ← split]; rfl)).2
      | plus => exact absurd (List.cons_prefix_cons.mp isPrefix).1 (by decide)
      | minus => exact Nat.add_le_add_left (tail (List.cons_prefix_cons.mp isPrefix).2) _

theorem nothing_before_blank (isSign : Sign sign' negative') (isRadix : Radix base lead' radix')
    (isDigit : ∀ c ∈ digits', IsDigit radix' c) (isBlank : isBlank c = true)
    (isPrefix : sign' ++ (lead' ++ digits') <+: c :: rest) :
    sign'.length + (lead'.length + digits'.length) = 0 := by
  have blankIs : c = ' '.toUInt8 ∨ c = '\t'.toUInt8 := by
    simpa [Libs.isBlank] using isBlank
  have noDigit : digitOf c = none := by
    rcases blankIs with rfl | rfl <;> decide
  cases isSign with
  | none =>
      obtain ⟨rfl, rfl⟩ := nothing_before isRadix isDigit noDigit isPrefix
      rfl
  | plus =>
      rw [← (List.cons_prefix_cons.mp isPrefix).1] at isBlank
      exact absurd isBlank (by decide)
  | minus =>
      rw [← (List.cons_prefix_cons.mp isPrefix).1] at isBlank
      exact absurd isBlank (by decide)

/-- What the code finds is the longest number unless an upper-case prefix follows. -/
theorem longest (scanned : Scanned base blanks sign lead digits rest negative radix)
    (noUpper : base = 0 ∨ base = 16 →
      ¬ ['0'.toUInt8, 'X'.toUInt8] <+: lead ++ (digits ++ rest)) :
    Longest base (blanks ++ (sign ++ (lead ++ (digits ++ rest))))
      (blanks ++ sign ++ lead ++ digits) negative radix digits where
  number := ⟨blanks, sign, lead, scanned.toParts, rfl⟩
  isPrefix := ⟨rest, by simp only [List.append_assoc]⟩
  longest := by
    intro blanks' sign' lead' digits' negative' radix' parts isPrefix
    simp only [List.append_assoc, List.length_append] at isPrefix ⊢
    obtain ⟨left, split, onward⟩ := munch parts.blank scanned.blanksEnd isPrefix
    cases left with
    | nil =>
        have rest_ := scanned.sign_le noUpper parts.isSign parts.isRadix parts.isDigit parts.leading onward
        rw [split, List.append_nil]
        omega
    | cons blank left =>
        have isBlank := scanned.blank blank (by simp [split])
        have nothing := nothing_before_blank parts.isSign parts.isRadix parts.isDigit isBlank onward
        rw [split, List.length_append]
        omega

/-! An upper-case prefix. -/

theorem upper_sign (scanned : Scanned base blanks sign lead digits rest negative radix)
    (isSign : Sign sign' negative')
    (isPrefix : sign' ++ ['0'.toUInt8, 'X'.toUInt8] <+: sign ++ (lead ++ (digits ++ rest))) :
    sign'.length = sign.length ∧ ['0'.toUInt8, 'X'.toUInt8] <+: lead ++ (digits ++ rest) := by
  have signEnd := scanned.signEnd
  have found := scanned.isSign
  cases isSign with
  | none =>
      cases found with
      | none => exact ⟨rfl, isPrefix⟩
      | plus => exact absurd (List.cons_prefix_cons.mp isPrefix).1 (by decide)
      | minus => exact absurd (List.cons_prefix_cons.mp isPrefix).1 (by decide)
  | plus =>
      cases found with
      | none =>
          obtain ⟨later, split⟩ := isPrefix
          exact absurd rfl (signEnd rfl '+'.toUInt8 (by rw [← List.nil_append (lead ++ _), ← split]; rfl)).1
      | plus => exact ⟨rfl, (List.cons_prefix_cons.mp isPrefix).2⟩
      | minus => exact absurd (List.cons_prefix_cons.mp isPrefix).1 (by decide)
  | minus =>
      cases found with
      | none =>
          obtain ⟨later, split⟩ := isPrefix
          exact absurd rfl (signEnd rfl '-'.toUInt8 (by rw [← List.nil_append (lead ++ _), ← split]; rfl)).2
      | plus => exact absurd (List.cons_prefix_cons.mp isPrefix).1 (by decide)
      | minus => exact ⟨rfl, (List.cons_prefix_cons.mp isPrefix).2⟩

theorem upper_short (scanned : Scanned base blanks sign lead digits rest negative radix)
    (allowed : base = 0 ∨ base = 16) (notUpper : lead ≠ ['0'.toUInt8, 'X'.toUInt8])
    (isPrefix : ['0'.toUInt8, 'X'.toUInt8] <+: lead ++ (digits ++ rest)) :
    lead.length + digits.length ≤ 1 := by
  have found := scanned.isRadix
  have isDigit := scanned.isDigit
  cases found with
  | hex =>
      have second := (List.cons_prefix_cons.mp (List.cons_prefix_cons.mp isPrefix).2).1
      exact absurd second (by decide)
  | upperHex => exact absurd rfl notUpper
  | octal =>
      obtain ⟨other, split⟩ := isPrefix
      have begins : '0'.toUInt8 :: digits <+: '0'.toUInt8 :: 'X'.toUInt8 :: other :=
        ⟨rest, split.symm⟩
      have short := zero_x_length (.inr rfl) (by decide)
        (List.forall_mem_cons.mpr ⟨⟨0, by decide⟩, isDigit⟩) begins
      simp only [List.length_cons, List.length_nil] at short ⊢
      omega
  | decimal => exact (scanned.decimal_no_zero isPrefix).elim
  | given =>
      obtain ⟨other, split⟩ := isPrefix
      have short := zero_x_length (.inr rfl) (by omega) isDigit ⟨rest, split.symm⟩
      rw [List.length_nil, Nat.zero_add]
      exact short

/-- With an upper-case prefix there is a longer number. -/
theorem upper_longer (scanned : Scanned base blanks sign lead digits rest negative radix)
    (notUpper : lead ≠ ['0'.toUInt8, 'X'.toUInt8])
    (upper : UpperHex base (blanks ++ (sign ++ (lead ++ (digits ++ rest))))) :
    ∃ blanks' sign' negative',
      Parts base blanks' sign' ['0'.toUInt8, 'X'.toUInt8] [] negative' 16 ∧
      blanks' ++ sign' ++ ['0'.toUInt8, 'X'.toUInt8] ++ [] <+:
        blanks ++ (sign ++ (lead ++ (digits ++ rest))) ∧
      (blanks ++ sign ++ lead ++ digits).length <
        (blanks' ++ sign' ++ ['0'.toUInt8, 'X'.toUInt8] ++ []).length := by
  obtain ⟨allowed, blanks', sign', negative', blank, isSign, isPrefix⟩ := upper
  have parts : Parts base blanks' sign' ['0'.toUInt8, 'X'.toUInt8] [] negative' 16 :=
    ⟨blank, isSign, .upperHex allowed, by simp, by simp⟩
  refine ⟨blanks', sign', negative', parts, by rwa [List.append_nil], ?_⟩
  rw [List.append_assoc] at isPrefix
  obtain ⟨left, split, onward⟩ := munch blank scanned.blanksEnd isPrefix
  cases left with
  | nil =>
      obtain ⟨sameSign, tail⟩ := scanned.upper_sign isSign onward
      have short := scanned.upper_short allowed notUpper tail
      simp only [split, List.length_append, List.length_cons, List.length_nil, sameSign]
      omega
  | cons blank left =>
      have isBlank := scanned.blank blank (by simp [split])
      have nothing := nothing_before_blank isSign (.upperHex allowed) (List.forall_mem_nil _) isBlank
        (by rwa [List.append_nil])
      simp at nothing

end Scanned

end Ucore.Libs.Strtol
