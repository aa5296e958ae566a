import Ucore.Libs.Printfmt.Numbers
import Ucore.Libs.Printfmt.Rounds
import Ucore.Libs.Printfmt.Truncation
import Ucore.Libs.Strtol.Scan

namespace Ucore.Libs.RoundTrip

open Ucore.Data Ucore.Mm Ucore.Libs.Printfmt Ucore.Libs.Strtol

/-! A number that `vsnprintf` prints and `strtol` reads again. -/

variable {memory : KernelMemory} {s base radix number : Nat} {negative : Bool} {c : UInt8}
  {blanks sign lead digits rest first second others : List UInt8}

/-! `strtol` finds the parts that it is shown. -/

theorem run_unique {kind : UInt8 → Prop} (all : ∀ c ∈ first, kind c) (allSecond : ∀ c ∈ second, kind c)
    (stops : ∀ c, rest.head? = some c → ¬ kind c) (stopsSecond : ∀ c, others.head? = some c → ¬ kind c)
    (same : first ++ rest = second ++ others) : first = second ∧ rest = others := by
  induction first generalizing second with
  | nil =>
      cases second with
      | nil => exact ⟨rfl, same⟩
      | cons c second => exact absurd (allSecond c (by simp)) (stops c (by rw [← List.nil_append rest, same]; rfl))
  | cons c first ih =>
      cases second with
      | nil => exact absurd (all c (by simp)) (stopsSecond c (by rw [← List.nil_append others, ← same]; rfl))
      | cons c' second =>
          rw [List.cons_append, List.cons_append, List.cons.injEq] at same
          obtain ⟨sameFirst, sameRest⟩ := ih (fun c member => all c (List.mem_cons_of_mem _ member))
            (fun c member => allSecond c (List.mem_cons_of_mem _ member)) same.2
          exact ⟨by rw [same.1, sameFirst], sameRest⟩

theorem sign_unique {sign' : List UInt8} {negative' : Bool} (isSign : Sign sign negative)
    (isSign' : Sign sign' negative')
    (signEnd : sign = [] → ∀ c, rest.head? = some c → c ≠ '+'.toUInt8 ∧ c ≠ '-'.toUInt8)
    (signEnd' : sign' = [] → ∀ c, others.head? = some c → c ≠ '+'.toUInt8 ∧ c ≠ '-'.toUInt8)
    (same : sign ++ rest = sign' ++ others) : sign = sign' ∧ negative = negative' ∧ rest = others := by
  cases isSign with
  | none =>
      cases isSign' with
      | none => exact ⟨rfl, rfl, same⟩
      | plus => exact absurd rfl (signEnd rfl '+'.toUInt8 (by rw [← List.nil_append rest, same]; rfl)).1
      | minus => exact absurd rfl (signEnd rfl '-'.toUInt8 (by rw [← List.nil_append rest, same]; rfl)).2
  | plus =>
      cases isSign' with
      | none => exact absurd rfl (signEnd' rfl '+'.toUInt8 (by rw [← List.nil_append others, ← same]; rfl)).1
      | plus => exact ⟨rfl, rfl, (List.cons.inj same).2⟩
      | minus => exact absurd (List.cons.inj same).1 (by decide)
  | minus =>
      cases isSign' with
      | none => exact absurd rfl (signEnd' rfl '-'.toUInt8 (by rw [← List.nil_append others, ← same]; rfl)).2
      | plus => exact absurd (List.cons.inj same).1 (by decide)
      | minus => exact ⟨rfl, rfl, (List.cons.inj same).2⟩

/-- Without a prefix, in a base that is given. -/
theorem strtol_scanned (scanned : Scanned base blanks sign [] digits rest negative base)
    (isGiven : base ≠ 0) (string : StringAt memory.image s (blanks ++ (sign ++ (digits ++ rest))))
    (endptr : Nat) :
    Returns (strtol memory s endptr base)
      (int64 (if negative then -(valueOf base digits) else valueOf base digits),
        if endptr = 0 then none else some (endptr, s + (blanks ++ sign ++ digits).length)) := by
  obtain ⟨blanks', sign', lead, digits', rest', negative', radix, split, found, notUpper, returns⟩ :=
    strtol_returns string base
  obtain ⟨rfl, behind⟩ := run_unique scanned.blank found.blank scanned.blanksEnd found.blanksEnd split
  obtain ⟨rfl, rfl, digitsFrom⟩ :=
    sign_unique scanned.isSign found.isSign scanned.signEnd found.signEnd behind
  have noLead : lead = [] ∧ radix = base := by
    have isRadix := found.isRadix
    cases isRadix with
    | hex allowed =>
        refine absurd ?_ (scanned.noHex allowed (by decide))
        rw [digitsFrom]
        exact List.prefix_append _ _
    | upperHex => exact absurd rfl notUpper
    | octal => exact absurd rfl isGiven
    | decimal => exact absurd rfl isGiven
    | given => exact ⟨rfl, rfl⟩
  obtain ⟨rfl, rfl⟩ := noLead
  obtain ⟨rfl, rfl⟩ := run_unique scanned.isDigit found.isDigit scanned.digitsEnd found.digitsEnd digitsFrom
  rw [List.append_nil] at returns
  exact returns endptr

/-! The digits of a numeral. -/

theorem digitOf_digitByte : ∀ digit < 16, digitOf (digitByte digit) = some digit := by decide

theorem digitByte_plain : ∀ digit < 16, isBlank (digitByte digit) ≠ true ∧ digitByte digit ≠ '+'.toUInt8 ∧
    digitByte digit ≠ '-'.toUInt8 := by decide

/-- A numeral with any zeros in front. -/
def zeroed (zeros base number : Nat) : List UInt8 :=
  List.replicate zeros '0'.toUInt8 ++ numeralText base number

theorem zeroed_digit (isBase : 1 < base) (small : base ≤ 16) (zeros number : Nat)
    (member : c ∈ zeroed zeros base number) : ∃ digit, digit < base ∧ c = digitByte digit := by
  rcases List.mem_append.mp member with isZero | isDigit
  · rw [List.eq_of_mem_replicate isZero]
    exact ⟨0, by omega, by decide⟩
  · obtain ⟨digit, isMember, rfl⟩ := List.mem_map.mp isDigit
    exact ⟨digit, numeral_lt isBase isMember, rfl⟩

theorem zeroed_isDigit (isBase : 1 < base) (small : base ≤ 16) (zeros number : Nat) :
    ∀ c ∈ zeroed zeros base number, IsDigit base c := by
  intro c member
  obtain ⟨digit, below, rfl⟩ := zeroed_digit isBase small zeros number member
  exact ⟨digit, digitOf_digitByte digit (by omega), below⟩

theorem valueOf_zeroed (isBase : 1 < base) (small : base ≤ 16) (zeros number : Nat) :
    valueOf base (zeroed zeros base number) = number := by
  have zero : digitOf '0'.toUInt8 = some 0 := by decide
  have skip (zeros : Nat) : ((List.replicate zeros '0'.toUInt8).filterMap digitOf).foldl
      (fun v dig => dig + base * v) 0 = 0 := by
    induction zeros with
    | zero => rfl
    | succ zeros ih =>
        rw [List.replicate_succ, List.filterMap_cons_some zero, List.foldl_cons, Nat.mul_zero]
        exact ih
  have same : (numeralText base number).filterMap digitOf = (numeral base number).filterMap some := by
    rw [numeralText, List.filterMap_map]
    refine List.filterMap_congr fun digit member => ?_
    exact digitOf_digitByte digit ((numeral_lt isBase member).trans_le small)
  have turned : (fun v dig : Nat => dig + base * v) = fun value digit => value * base + digit := by
    funext v dig
    rw [Nat.add_comm, Nat.mul_comm]
  rw [valueOf_eq, zeroed, List.filterMap_append, List.foldl_append, skip, same, List.filterMap_some, turned,
    numeral_foldl isBase]

/-- A number behind blanks, with a sign and zeros, is read as a whole. -/
theorem zeroed_scanned (isBase : 1 < base) (small : base ≤ 16) (zeros number : Nat)
    (blank : ∀ c ∈ blanks, isBlank c = true) (isSign : Sign sign negative) :
    Scanned base blanks sign [] (zeroed zeros base number) [] negative base := by
  have isDigit := zeroed_isDigit isBase small zeros number
  have noSpace (c : UInt8) (head : (zeroed zeros base number ++ []).head? = some c) :
      isBlank c ≠ true ∧ c ≠ '+'.toUInt8 ∧ c ≠ '-'.toUInt8 := by
    rw [List.append_nil] at head
    obtain ⟨digit, below, rfl⟩ := zeroed_digit isBase small zeros number (List.mem_of_head? head)
    exact digitByte_plain digit (by omega)
  refine ⟨⟨blank, isSign, .given (by omega), isDigit, fun isZero => by omega⟩, fun c head => ?_,
    fun _ c head => (noSpace c head).2, fun _ _ isPrefix => ?_, fun c head => by cases head⟩
  · cases isSign with
    | none => exact (noSpace c head).1
    | plus =>
        cases head
        decide
    | minus =>
        cases head
        decide
  · rw [List.append_nil, List.nil_append] at isPrefix
    have member : 'x'.toUInt8 ∈ zeroed zeros base number := isPrefix.subset (by simp)
    exact not_isDigit_x (.inl rfl) (by omega) (isDigit _ member)

/-- Behind the sign nothing is read if no digit follows. -/
theorem sign_scanned (noDigit : digitOf c = none) (notZero : c ≠ '0'.toUInt8) (isSign : Sign sign negative)
    (isBase : 1 < base) (notEmpty : sign ≠ []) :
    Scanned base [] sign [] [] (c :: rest) negative base := by
  refine ⟨⟨by simp, isSign, .given (by omega), by simp, fun isZero => by omega⟩, fun c head => ?_,
    fun isEmpty => absurd isEmpty notEmpty, fun _ _ isPrefix => ?_, fun c' head => ?_⟩
  · cases isSign with
    | none => exact absurd rfl notEmpty
    | plus =>
        cases head
        decide
    | minus =>
        cases head
        decide
  · exact notZero (List.cons_prefix_cons.mp isPrefix).1.symm
  · cases head
    intro isDigit
    obtain ⟨dig, value, _⟩ := isDigit
    rw [noDigit] at value
    cases value

/-! What is printed. -/

variable {value : Int} {flag : Flag} {padc : UInt8} {pad : Nat}

theorem signText_sign (value : Int) : Sign (signText value) (decide (value < 0)) := by
  by_cases negative : value < 0
  · rw [signText, if_pos negative, decide_eq_true negative]
    exact .minus
  · rw [signText, if_neg negative, decide_eq_false negative]
    exact .none

theorem signed_value (value : Int) :
    (if decide (value < 0) then -(value.natAbs : Int) else value.natAbs) = value := by
  by_cases negative : value < 0
  · rw [if_pos (decide_eq_true negative)]
    omega
  · rw [if_neg (by simpa using negative)]
    omega

/-- The parser gets the value back and ends at the terminator. -/
def ReadsBack (memory : KernelMemory) (str base : Nat) (value : Int) (text : List UInt8) : Prop :=
  ∀ endptr, endptr ≠ 0 →
    Returns (strtol memory str endptr base) (int64 value, some (endptr, str + text.length))

theorem reads_zeroed (isBase : 1 < base) (small : base ≤ 16) (zeros : Nat)
    (string : StringAt memory.image s (signText value ++ zeroed zeros base value.natAbs)) :
    ReadsBack memory s base value (signText value ++ zeroed zeros base value.natAbs) := by
  intro endptr notNull
  have scanned := zeroed_scanned isBase small zeros value.natAbs (List.forall_mem_nil _) (signText_sign value)
  have returns := strtol_scanned scanned (by omega) (by simpa using string) endptr
  rw [valueOf_zeroed isBase small, signed_value, if_neg notNull] at returns
  exact returns

theorem reads_blanks (isBase : 1 < base) (small : base ≤ 16) (count number : Nat)
    (string : StringAt memory.image s (List.replicate count ' '.toUInt8 ++ numeralText base number)) :
    ReadsBack memory s base number (List.replicate count ' '.toUInt8 ++ numeralText base number) := by
  intro endptr notNull
  have blank : ∀ c ∈ List.replicate count ' '.toUInt8, isBlank c = true := fun c member => by
    rw [List.eq_of_mem_replicate member]
    decide
  have scanned := zeroed_scanned isBase small 0 number blank .none
  have returns := strtol_scanned scanned (by omega) (by simpa [zeroed] using string) endptr
  rw [valueOf_zeroed isBase small, if_neg notNull, List.append_nil] at returns
  exact returns

theorem int64_neg_eq_iff (bound : number < 2 ^ 64) :
    int64 (-(number : Int)) = int64 number ↔ number = 0 ∨ number = 2 ^ 63 := by
  rw [int64, int64, Int.bmod_eq_bmod_iff_bmod_sub_eq_zero, ← Int.dvd_iff_bmod_eq_zero]
  refine ⟨fun divides => ?_, fun same => ?_⟩
  · obtain ⟨turns, split⟩ := divides
    omega
  · rcases same with rfl | rfl
    · exact Dvd.intro 0 rfl
    · exact Dvd.intro (-1) rfl

/-- One minus sign in front makes the number negative. -/
theorem reads_minus_iff (isBase : 1 < base) (small : base ≤ 16) (bound : number < 2 ^ 64)
    (string : StringAt memory.image s ('-'.toUInt8 :: numeralText base number)) :
    ReadsBack memory s base number ('-'.toUInt8 :: numeralText base number) ↔
      number = 0 ∨ number = 2 ^ 63 := by
  have scanned := zeroed_scanned isBase small 0 number (List.forall_mem_nil _) .minus
  have returns (endptr : Nat) := strtol_scanned scanned (by omega) (by simpa [zeroed] using string) endptr
  simp only [valueOf_zeroed isBase small, if_true] at returns
  rw [← int64_neg_eq_iff bound]
  refine ⟨fun reads => ?_, fun same endptr notNull => ?_⟩
  · have same := (reads 1 (by decide)).unique (returns 1)
    rw [Prod.mk.injEq] at same
    exact same.1.symm
  · have back := returns endptr
    rw [same, if_neg notNull] at back
    exact back

/-- Behind a sign nothing but digits can follow. -/
theorem not_reads (isBase : 1 < base) (noDigit : digitOf c = none) (notZero : c ≠ '0'.toUInt8)
    (string : StringAt memory.image s ('-'.toUInt8 :: c :: rest)) :
    ¬ ReadsBack memory s base value ('-'.toUInt8 :: c :: rest) := by
  intro reads
  have scanned : Scanned base [] ['-'.toUInt8] [] [] (c :: rest) true base :=
    sign_scanned noDigit notZero .minus isBase (List.cons_ne_nil _ _)
  have returns := strtol_scanned scanned (by omega) string 1
  have same := congrArg Prod.snd ((reads 1 (by decide)).unique returns)
  simp at same

/-- The text of a number with its padding is read back exactly when nothing is padded, or zeros are, or
blanks in front of a number without a sign, or one minus sign in front of a number that is its own
negation. -/
theorem padded_reads_iff (isBase : 1 < base) (small : base ≤ 16) (bound : value < 2 ^ 64)
    (pads : padc = flag.padc ∨ pad = 0)
    (string : StringAt memory.image s
      (signText value ++ (List.replicate pad padc ++ numeralText base value.natAbs))) :
    ReadsBack memory s base value
        (signText value ++ (List.replicate pad padc ++ numeralText base value.natAbs)) ↔
      pad = 0 ∨ flag = .zero ∨
        (0 ≤ value ∧ (flag = .none ∨ (pad = 1 ∧ (value = 0 ∨ value = 2 ^ 63)))) := by
  rcases Nat.eq_zero_or_pos pad with none | some
  · subst none
    exact iff_of_true (reads_zeroed isBase small 0 string) (.inl rfl)
  · obtain ⟨more, rfl⟩ := Nat.exists_eq_succ_of_ne_zero some.ne'
    have isPad : padc = flag.padc := pads.resolve_right (Nat.succ_ne_zero more)
    rw [isPad] at string ⊢
    cases flag with
    | zero => exact iff_of_true (reads_zeroed isBase small (more + 1) string) (.inr (.inl rfl))
    | none =>
        rcases Int.lt_or_le value 0 with negative | natural
        · rw [signText, if_pos negative] at string ⊢
          exact iff_of_false (not_reads isBase (by decide) (by decide) string) (by simp; omega)
        · obtain ⟨number, rfl⟩ := Int.eq_ofNat_of_zero_le natural
          rw [signText, if_neg (by omega)] at string ⊢
          exact iff_of_true (reads_blanks isBase small (more + 1) number string) (by simp)
    | minus =>
        rcases Int.lt_or_le value 0 with negative | natural
        · rw [signText, if_pos negative] at string ⊢
          exact iff_of_false (not_reads isBase (by decide) (by decide) string) (by simp; omega)
        · obtain ⟨number, rfl⟩ := Int.eq_ofNat_of_zero_le natural
          rw [signText, if_neg (by omega)] at string ⊢
          cases more with
          | zero =>
              refine (reads_minus_iff isBase small (by omega) string).trans ?_
              simp; omega
          | succ more =>
              exact iff_of_false (not_reads isBase (by decide) (by decide) string) (by simp)

/-! Through a buffer. -/

theorem padded_noZero (isBase : 1 < base) (small : base ≤ 16) (flag : Flag) (pads : padc = flag.padc ∨ pad = 0)
    (value : Int) :
    0 ∉ signText value ++ (List.replicate pad padc ++ numeralText base value.natAbs) := by
  have digits : ∀ digit < 16, digitByte digit ≠ 0 := by decide
  have isText : flag.padc ≠ 0 := by cases flag <;> decide
  intro zero
  rcases List.mem_append.mp zero with inSign | others
  · rw [signText] at inSign
    split at inSign
    · exact absurd inSign (by decide)
    · cases inSign
  · rcases List.mem_append.mp others with inPad | inDigits
    · rw [List.mem_replicate] at inPad
      exact isText ((pads.resolve_right inPad.1).symm.trans inPad.2.symm)
    · obtain ⟨digit, isMember, isZero⟩ := List.mem_map.mp inDigits
      exact digits digit ((numeral_lt isBase isMember).trans_le small) isZero

theorem chars_bytes (text : List UInt8) : (chars text).map UInt8.ofInt = text := by
  have same : UInt8.ofInt ∘ (fun byte : UInt8 => (byte.toNat : Int)) = id := by
    funext byte
    have small := byte.toNat_lt
    refine UInt8.toNat_inj.mp ?_
    simp only [Function.comp_apply, UInt8.ofInt, UInt8.toNat_ofNat', id_eq]
    omega
  rw [chars, List.map_map, same, List.map_id]

/-- A number that is printed into a buffer is read back from it exactly when its width pads nothing, or with
zeros, or with blanks and there is no sign, or with a single minus sign and it is its own negation. -/
theorem number_reads_back_iff {memory : KernelMemory} {str size : Nat}
    (mapped : ∀ address, str ≤ address → address < str + size → memory.image address ≠ none)
    (conversion : Number) (flag : Flag) (lflag : Nat) {ap left : VaList} {text : List UInt8}
    {width : Option Nat} (given : Given ap text left width) (isInt : width.getD 0 < 2 ^ 31)
    {format : Object} (string : StringAt (format.view (memory.image.outside str size)) 0
      ('%'.toUInt8 :: (flag.text ++ text ++ List.replicate lflag 'l'.toUInt8 ++ [conversion.letter])))
    (isValue : conversion.value left.head lflag = value)
    (isPad : width.getD 0 - (numeralText conversion.base value.natAbs).length = pad)
    (room : (signText value).length + pad + (numeralText conversion.base value.natAbs).length < size) :
    ∃ padc after printed, (padc = flag.padc ∨ pad = 0) ∧
      printed = signText value ++ (List.replicate pad padc ++
        numeralText conversion.base value.natAbs) ∧
      Returns (vsnprintf memory str size format ap) (printed.length, after) ∧
      (ReadsBack after str conversion.base value printed ↔ pad = 0 ∨ flag = .zero ∨
        (0 ≤ value ∧ (flag = .none ∨ (pad = 1 ∧ (value = 0 ∨ value = 2 ^ 63))))) := by
  obtain ⟨isBase, small⟩ := conversion.isBase
  have magnitude := value_natAbs_lt conversion left.head lflag
  rw [isValue] at magnitude
  obtain ⟨some, few⟩ := numeralText_length isBase magnitude
  have isRoom : 0 < size := by omega
  obtain ⟨low, inside⟩ := buffer_bounds isRoom mapped
  have begins : ∃ emitted, Filled memory str size
      ⟨(Output.start { memory, b := sprintbuf str size } : Output Buffer).state, emitted⟩ :=
    ⟨[], Filled.start isRoom inside mapped⟩
  have keeps : Keeps sprintputch (memory.image.outside str size) fun buffer =>
      ∃ emitted, Filled memory str size ⟨buffer, emitted⟩ := Filled.keeps_outside isRoom inside
  obtain ⟨padc, out, pads, escape, emitted⟩ :=
    number_returns keeps begins conversion flag lflag given isInt string.tail
  rw [isValue, isPad] at emitted
  have returns := round_escape keeps begins string escape
    (round_end keeps emitted.state string.tail.skip.tail left.tail)
  have pads : padc = flag.padc ∨ pad = 0 := pads.imp id fun zero => by omega
  have texts := emitted.emitted
  have noZero := padded_noZero isBase small flag pads value
  have length : (signText value ++ (List.replicate pad padc ++
      numeralText conversion.base value.natAbs)).length =
        (signText value).length + pad + (numeralText conversion.base value.natAbs).length := by
    rw [List.length_append, List.length_append, List.length_replicate, Nat.add_assoc]
  generalize isPrinted : signText value ++ (List.replicate pad padc ++
    numeralText conversion.base value.natAbs) = printed at texts noZero length
  rw [Output.start, List.nil_append] at texts
  have isAddress : str < 2 ^ 64 := by omega
  have notNull : str ≠ 0 := by
    simp only [mappedBase] at low
    omega
  obtain ⟨after, result, holds, _⟩ := (vsnprintf_truncates memory str size format ap isAddress).2 out notNull
    isRoom inside mapped returns (by
      simp only [mappedBase] at low
      rw [texts, chars_length, length]
      omega)
  rw [texts, List.take_of_length_le (by rw [chars_length, length]; omega), chars_bytes] at holds
  rw [texts, chars_length] at result
  have bound : value < 2 ^ 64 := by omega
  refine ⟨padc, after, printed, pads, isPrinted.symm, result, ?_⟩
  rw [← isPrinted] at holds noZero ⊢
  exact padded_reads_iff isBase small bound pads ⟨holds, noZero⟩

/-- `"-000042"`, as a `long`. -/
theorem number_reads_back_padded : ∃ after,
    Returns (vsnprintf (stringMemory (bytesOf "some buffer") (by decide)) stringAddress 12
      (.constant (bytesOf "%06ld")) (oneArg (intArg (-42)))) (7, after) ∧
    ReadsBack after stringAddress 10 (-42) (bytesOf "-000042") := by
  have mapped (address : Nat) (low : stringAddress ≤ address) (high : address < stringAddress + 12) :
      (stringMemory (bytesOf "some buffer") (by decide)).image address ≠ none :=
    (Image.ofBytes_holds stringAddress (bytesOf "some buffer" ++ [0])).readable low high
  have string : StringAt ((Object.constant (bytesOf "%06ld")).view
      ((stringMemory (bytesOf "some buffer") (by decide)).image.outside stringAddress 12)) 0
      ('%'.toUInt8 :: (Flag.zero.text ++ numeralText 10 6 ++ List.replicate 1 'l'.toUInt8 ++ [Number.d.letter])) :=
    constant_string (by decide)
  obtain ⟨padc, after, printed, pads, isPrinted, result, reads⟩ := number_reads_back_iff mapped .d .zero 1
    (.digits 6 : Given (oneArg (intArg (-42))) _ _ _) (by decide) string
    (by decide : Number.d.value (oneArg (intArg (-42))).head 1 = -42) (by decide : _ = 4) (by decide)
  have isZero : padc = '0'.toUInt8 := pads.resolve_right (by decide)
  have text : printed = bytesOf "-000042" := by
    rw [isPrinted, isZero]
    decide
  rw [text] at result reads
  exact ⟨after, result, reads.mpr (.inr (.inl rfl))⟩

end Ucore.Libs.RoundTrip
