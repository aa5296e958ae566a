import Ucore.Libs.Printfmt.Fields

namespace Ucore.Libs.Printfmt

open Ucore.Data Ucore.Mm

/-! The numeric conversions. -/

variable {σ : Type} {sink : Sink σ} {image : Image} {invariant : σ → Prop} {out : Output σ}
  {format : Object} {fmt : Nat} {ap left : VaList} {memory : KernelMemory} {fault : String}

theorem digit_ok {digit : Nat} (small : digit < 16) :
    load memory (.constant (bytesOf "0123456789abcdef")) digit fault = .ok (digitByte digit) := by
  have all : ∀ digit < 16, Image.ofBytes 0 (bytesOf "0123456789abcdef" ++ [0]) digit =
      some (digitByte digit) := by decide
  exact load_ok (all digit small)

theorem numeralText_ne_nil {base : Nat} (isBase : 1 < base) (number : Nat) :
    (numeralText base number).length ≠ 0 := by
  rw [numeralText, List.length_map]
  exact (List.length_pos_iff.mpr (numeral_ne_nil isBase number)).ne'

/-- How many pad characters `printnum` prints for a width, with so many digits behind the first one. -/
def padCount : (more : Nat) → (width : Int) → Nat
  | 0, width => (width - 1).toNat
  | more + 1, width => padCount more (wrap32 (width - 1))

theorem padCount_eq {more : Nat} {width : Int} (isInt : IsInt width) :
    padCount more width = (wrap32 (width - more) - 1).toNat := by
  induction more generalizing width with
  | zero =>
      rw [Nat.cast_zero, sub_zero, wrap32_of_fits isInt.1 isInt.2]
      rfl
  | succ more ih =>
      rw [padCount, ih (wrap32_bounds _), wrap32_wrap32_sub, sub_sub, Nat.cast_succ, add_comm (1 : Int)]

/-- The width of an escape, or none, leaves this room in front of the digits. -/
theorem padCount_room {width length : Nat} {found : Int} (some : 1 ≤ length) (few : length ≤ 64)
    (small : width < 2 ^ 31) (cases : found = width ∨ (width = 0 ∧ found = -1)) :
    padCount (length - 1) found = width - length := by
  rw [padCount_eq ⟨by omega, by omega⟩, wrap32_of_fits (by omega) (by omega)]
  omega

/-- The digits with what `printnum` prints in front of them. -/
def padDigits (padc : UInt8) (width : Int) (digits : List UInt8) : List UInt8 :=
  List.replicate (padCount (digits.length - 1) width) padc ++ digits

/-- `printnum` pads and prints the numeral, by induction on its digits. -/
theorem printnum_emits {base : Nat} (keeps : Keeps sink image invariant) (before : invariant out.state)
    (isBase : 1 < base) (small : base ≤ 16) (num : Nat) (width padc : Int) :
    ∃ next, Returns (fun fuel => printnum sink base padc fuel num width out) next ∧
      Extends invariant out
        (List.replicate (padCount ((numeralText base num).length - 1) width) padc ++
          chars (numeralText base num)) next := by
  induction num using numeral_induction isBase generalizing width out with
  | one num single =>
      obtain ⟨padded, pad, pads⟩ := keeps.putPad before padc (width - 1).toNat
      obtain ⟨next, put, last⟩ := keeps.emit pads.state (digitByte num).toNat
      have digit := Nat.mod_eq_of_lt single
      refine ⟨next, .round (.of_constant fun fuel => ?_), ?_⟩
      · simp only [printnum, if_neg (Nat.not_le.mpr single), pad, ok_bind, digit,
          digit_ok (single.trans_le small), put]
      · rw [numeralText_of_lt single]
        exact pads.trans last
  | more num large ih =>
      obtain ⟨leading, leadingReturns, leadingText⟩ := ih before (wrap32 (width - 1))
      obtain ⟨next, put, last⟩ := keeps.emit leadingText.state (digitByte (num % base)).toNat
      have digit : num % base < 16 := (Nat.mod_lt num (by omega)).trans_le small
      refine ⟨next, .round ?_, ?_⟩
      · simp only [printnum, if_pos large, digit_ok digit, ok_bind]
        exact leadingReturns.bind (.of_constant fun fuel => put)
      · have text := leadingText.trans last
        obtain ⟨count, length⟩ := Nat.exists_eq_succ_of_ne_zero (numeralText_ne_nil isBase (num / base))
        rw [length, Nat.succ_sub_one, List.append_assoc] at text
        rw [numeralText_of_le isBase large, chars_append, List.length_append, length, List.length_singleton,
          Nat.add_sub_cancel, padCount]
        exact text

theorem printnum_returns {base : Nat} (keeps : Keeps sink image invariant) (before : invariant out.state)
    (isBase : 1 < base) (small : base ≤ 16) (num : Nat) (width : Int) (padc : UInt8) :
    ∃ next, Returns (fun fuel => printnum sink base padc.toNat fuel num width out) next ∧
      Extends invariant out (chars (padDigits padc width (numeralText base num))) next := by
  rw [padDigits, chars_append, chars_replicate]
  exact printnum_emits keeps before isBase small num width padc.toNat

/-- The conversions of numbers. -/
inductive Number where
  | d
  | u
  | o
  | x

namespace Number

def letter : Number → UInt8
  | d => 'd'.toUInt8
  | u => 'u'.toUInt8
  | o => 'o'.toUInt8
  | x => 'x'.toUInt8

def base : Number → Nat
  | d => 10
  | u => 10
  | o => 8
  | x => 16

theorem isBase (conversion : Number) : 1 < conversion.base ∧ conversion.base ≤ 16 := by
  cases conversion <;> decide

/-- The argument as a value of the type that the conversion and the number of `l` stand for. -/
def value (conversion : Number) (arg : Arg) (lflag : Nat) : Int :=
  match conversion with
  | d => getint arg lflag
  | u => getuint arg lflag
  | o => getuint arg lflag
  | x => getuint arg lflag

end Number

def signText (value : Int) : List UInt8 := if value < 0 then ['-'.toUInt8] else []

theorem arg_value_lt (arg : Arg) : arg.value < 2 ^ 64 := by
  cases arg with
  | word value extent => exact value.toNat_lt
  | constant text => exact Nat.two_pow_pos 64

theorem int64_bounds (value : Int) : -2 ^ 63 ≤ int64 value ∧ int64 value < 2 ^ 63 := by
  have low := Int.le_bmod (x := value) (m := 2 ^ 64) (by decide)
  have high := Int.bmod_lt (x := value) (m := 2 ^ 64) (by decide)
  rw [int64]
  omega

theorem getint_bounds (arg : Arg) (lflag : Nat) :
    -2 ^ 63 ≤ getint arg lflag ∧ getint arg lflag < 2 ^ 63 := by
  rw [getint]
  split
  · exact int64_bounds _
  · split
    · exact int64_bounds _
    · have bounds := wrap32_bounds arg.value
      rw [Arg.int, int32_eq_wrap32]
      omega

theorem int64_uint64OfInt {value : Int} (low : -2 ^ 63 ≤ value) (high : value < 2 ^ 63) :
    int64 (uint64OfInt value) = value := by
  have bits : (uint64OfInt value : Int) = value % 2 ^ 64 := by
    rw [uint64OfInt]
    omega
  rw [int64, bits]
  exact (Int.emod_bmod value (2 ^ 64)).trans (Int.bmod_eq_of_le (by omega) (by omega))

theorem putSigned_returns (keeps : Keeps sink image invariant) (before : invariant out.state)
    (escape : Escape) {value : Int} (low : -2 ^ 63 ≤ value) (high : value < 2 ^ 63) :
    ∃ next, Returns (fun fuel => putSigned sink value escape fuel out) next ∧
      Extends invariant out (chars (signText value ++
        padDigits escape.padc escape.width (numeralText 10 value.natAbs))) next := by
  have same := int64_uint64OfInt low high
  by_cases negative : value < 0
  · obtain ⟨signed, put, sign⟩ := keeps.emit before '-'.toNat
    obtain ⟨next, returns, digits⟩ := printnum_returns keeps sign.state (by decide : 1 < 10)
      (by decide) value.natAbs escape.width escape.padc
    have magnitude : uint64OfInt (-value) = value.natAbs := by
      simp only [uint64OfInt]
      omega
    refine ⟨next, ?_, ?_⟩
    · simp only [putSigned, same, if_pos negative, put, ok_bind, magnitude]
      exact returns
    · rw [signText, if_pos negative, chars_append]
      exact sign.trans digits
  · obtain ⟨next, returns, digits⟩ := printnum_returns keeps before (by decide : 1 < 10)
      (by decide) value.natAbs escape.width escape.padc
    have magnitude : uint64OfInt value = value.natAbs := by
      simp only [uint64OfInt]
      omega
    refine ⟨next, ?_, ?_⟩
    · simp only [putSigned, same, if_neg negative]
      rw [magnitude]
      exact returns
    · rw [signText, if_neg negative, List.nil_append]
      exact digits

theorem convert_number (format : Object) (keeps : Keeps sink image invariant)
    (before : invariant out.state) (conversion : Number) (escape : Escape) (ap : VaList) (fmt : Nat) :
    ∃ next, Returns (fun fuel => convert sink format (printfmt sink fuel) fuel conversion.letter fmt ap
        escape out) (fmt, ap.tail, next) ∧
      Extends invariant out (chars (signText (conversion.value ap.head escape.lflag) ++
        padDigits escape.padc escape.width
          (numeralText conversion.base (conversion.value ap.head escape.lflag).natAbs))) next := by
  have unsigned (base num : Nat) (isBase : 1 < base) (small : base ≤ 16) :
      ∃ next, Returns (fun fuel =>
          printnum sink base escape.padc.toNat fuel num escape.width out >>= fun out =>
            .ok (fmt, ap.tail, out)) (fmt, ap.tail, next) ∧
        Extends invariant out (chars (signText num ++
          padDigits escape.padc escape.width (numeralText base (num : Int).natAbs))) next := by
    obtain ⟨next, returns, digits⟩ :=
      printnum_returns keeps before isBase small num escape.width escape.padc
    refine ⟨next, returns.bind (.of_constant fun fuel => rfl), ?_⟩
    rw [signText, if_neg (by omega), List.nil_append, Int.natAbs_natCast]
    exact digits
  cases conversion with
  | d =>
      obtain ⟨low, high⟩ := getint_bounds ap.head escape.lflag
      obtain ⟨next, returns, digits⟩ := putSigned_returns keeps before escape low high
      exact ⟨next, returns.bind (.of_constant fun fuel => rfl), digits⟩
  | u => exact unsigned 10 _ (by decide) (by decide)
  | o => exact unsigned 8 _ (by decide) (by decide)
  | x => exact unsigned 16 _ (by decide) (by decide)

theorem numeralText_length {base number : Nat} (isBase : 1 < base) (bound : number < 2 ^ 64) :
    1 ≤ (numeralText base number).length ∧ (numeralText base number).length ≤ 64 := by
  refine ⟨Nat.pos_of_ne_zero (numeralText_ne_nil isBase number), ?_⟩
  rw [numeralText, List.length_map]
  refine numeral_length_le isBase ?_ (by decide)
  exact bound.trans_le (Nat.pow_le_pow_left isBase 64)

theorem numeralText_head {base : Nat} (isBase : 1 < base) (small : base ≤ 16) (number : Nat) :
    (numeralText base number).head? ≠ some '-'.toUInt8 := by
  have noMinus : ∀ digit < 16, digitByte digit ≠ '-'.toUInt8 := by decide
  rw [numeralText, List.head?_map]
  cases split : numeral base number with
  | nil => simp
  | cons first rest =>
      have member : first ∈ numeral base number := by simp [split]
      simpa using noMinus first ((numeral_lt isBase member).trans_le small)

/-- What is printed is the text in its field, unless there is padding and it stands in the wrong
place. -/
theorem padded_eq_field_iff {base number width : Nat} {value : Int} {flag : Flag} {padc : UInt8}
    (isBase : 1 < base) (small : base ≤ 16) (bound : number < 2 ^ 64)
    (pads : padc = flag.padc ∨ width = 0) :
    signText value ++ (List.replicate (width - (numeralText base number).length) padc ++
        numeralText base number) = field flag width (signText value) (numeralText base number) ↔
      width ≤ (numeralText base number).length ∨ (0 ≤ value ∧ flag ≠ .minus) := by
  obtain ⟨some, few⟩ := numeralText_length isBase bound
  have head := numeralText_head isBase small number
  generalize numeralText base number = digits at some few head ⊢
  rcases Nat.lt_or_ge digits.length width with wide | full
  · have isPad : padc = flag.padc := pads.resolve_right (by omega)
    rw [or_iff_right (Nat.not_le.mpr wide), isPad]
    by_cases negative : value < 0
    · -- the sign does not count
      refine iff_of_false (fun same => ?_) fun right => absurd right.1 (Int.not_le.mpr negative)
      have lengths := congrArg List.length same
      rw [field_length] at lengths
      simp only [signText, if_pos negative, List.length_append, List.length_singleton,
        List.length_replicate] at lengths
      omega
    · have natural := Int.not_lt.mp negative
      rw [signText, if_neg negative, List.nil_append]
      cases flag with
      | none => exact iff_of_true rfl ⟨natural, by decide⟩
      | zero => exact iff_of_true rfl ⟨natural, by decide⟩
      | minus =>
          refine iff_of_false (fun same => ?_) fun right => right.2 rfl
          have first := congrArg List.head? same
          obtain ⟨more, count⟩ := Nat.exists_eq_succ_of_ne_zero (Nat.sub_ne_zero_of_lt wide)
          rw [field, List.nil_append, List.head?_append_of_ne_nil _ (List.length_pos_iff.mp some),
            count, List.replicate_succ] at first
          exact head first.symm
  · rw [field_full (full.trans (by simp)), Nat.sub_eq_zero_of_le full, List.replicate_zero,
      List.nil_append]
    exact iff_of_true rfl (.inl full)

theorem value_natAbs_lt (conversion : Number) (arg : Arg) (lflag : Nat) :
    (conversion.value arg lflag).natAbs < 2 ^ 64 := by
  have unsigned : getuint arg lflag < 2 ^ 64 := by
    have word := arg_value_lt arg
    rw [getuint, uint32]
    split
    · exact word
    · split
      · exact word
      · omega
  cases conversion with
  | d =>
      have bounds := getint_bounds arg lflag
      simp only [Number.value]
      omega
  | u => exact unsigned
  | o => exact unsigned
  | x => exact unsigned

theorem letter_stops (conversion : Number) : isSpec conversion.letter ≠ true := by
  cases conversion <;> decide

theorem number_returns (keeps : Keeps sink image invariant) (before : invariant out.state)
    (conversion : Number) (flag : Flag) (lflag : Nat) {text rest : List UInt8} {number : Option Nat}
    (given : Given ap text left number) (isInt : number.getD 0 < 2 ^ 31)
    (string : StringAt (format.view image) fmt
      (flag.text ++ text ++ List.replicate lflag 'l'.toUInt8 ++ conversion.letter :: rest)) :
    ∃ padc next, (padc = flag.padc ∨ number.getD 0 = 0) ∧
      Returns (fun fuel => processEscape sink format (printfmt sink fuel) fuel fmt ap out)
        (fmt + (flag.text ++ text ++ List.replicate lflag 'l'.toUInt8).length + 1, left.tail, next) ∧
      Extends invariant out (chars (signText (conversion.value left.head lflag) ++
        (List.replicate (number.getD 0 - (numeralText conversion.base
          (conversion.value left.head lflag).natAbs).length) padc ++
            numeralText conversion.base (conversion.value left.head lflag).natAbs))) next := by
  obtain ⟨padc, width, arguments, finish, isWidth⟩ := scan_width given flag.padc
  rw [wrap32_of_fits (by omega) (by omega)] at isWidth
  have spec : ∀ ch ∈ flag.text ++ text ++ List.replicate lflag 'l'.toUInt8, isSpec ch = true := by
    intro ch member
    rcases List.mem_append.mp member with inFront | isLong
    · exact (List.mem_append.mp inFront).elim (flag_spec flag ch) (given_spec given ch)
    · rw [List.eq_of_mem_replicate isLong]
      decide
  have scanned := scan_long (text.foldl Scan.step ⟨{ padc := flag.padc }, none, ap⟩) lflag
  rw [arguments, finish, ← scan_flag flag ap, ← List.foldl_append, ← List.foldl_append,
    ← List.append_assoc] at scanned
  obtain ⟨next, returns, emitted⟩ := convert_number format keeps before conversion
    { padc, width, lflag := 0 + lflag } left
    (fmt + (flag.text ++ text ++ List.replicate lflag 'l'.toUInt8).length + 1)
  obtain ⟨some, few⟩ :=
    numeralText_length conversion.isBase.1 (value_natAbs_lt conversion left.head lflag)
  simp only [Nat.zero_add] at emitted
  rw [padDigits, padCount_room some few isInt (isWidth.imp And.right id)] at emitted
  exact ⟨padc, next, isWidth.imp And.left And.left,
    processEscape_ends keeps before string spec (letter_stops conversion) scanned.1 scanned.2 returns,
    emitted⟩

/-- The text is the number in its field exactly when there is nothing to pad, or when the number is
not negative and the flag is not `-`. -/
theorem number_fills_iff (keeps : Keeps sink image invariant) (before : invariant out.state)
    (conversion : Number) (flag : Flag) (lflag : Nat) {text rest : List UInt8} {number : Option Nat}
    (given : Given ap text left number) (isInt : number.getD 0 < 2 ^ 31)
    (string : StringAt (format.view image) fmt
      (flag.text ++ text ++ List.replicate lflag 'l'.toUInt8 ++ conversion.letter :: rest)) :
    Emits sink format fmt ap out
      (field flag (number.getD 0) (signText (conversion.value left.head lflag))
        (numeralText conversion.base (conversion.value left.head lflag).natAbs))
      (fmt + (flag.text ++ text ++ List.replicate lflag 'l'.toUInt8).length + 1) left.tail ↔
    number.getD 0 ≤
        (numeralText conversion.base (conversion.value left.head lflag).natAbs).length ∨
      (0 ≤ conversion.value left.head lflag ∧ flag ≠ .minus) := by
  obtain ⟨padc, next, pads, returns, emitted⟩ :=
    number_returns keeps before conversion flag lflag given isInt string
  rw [emits_iff returns emitted]
  exact padded_eq_field_iff conversion.isBase.1 conversion.isBase.2
    (value_natAbs_lt conversion left.head lflag) pads

theorem number_fills_five : Emits cputch (.constant (bytesOf "%5d")) 1 (oneArg (intArg 42))
    (console [] (by decide)) (bytesOf "   42") 3 (oneArg (intArg 42)).tail := by
  have string : StringAt ((Object.constant (bytesOf "%5d")).view
      (console [] (by decide)).state.memory.image) 1 (bytesOf "5d") := (constant_string (by decide)).tail
  have text : field .none 5 (signText (Number.d.value (intArg 42) 0))
      (numeralText 10 (Number.d.value (intArg 42) 0).natAbs) = bytesOf "   42" := by decide
  rw [← text]
  exact (number_fills_iff (cputch_keeps _) rfl .d .none 0 (.digits 5) (by decide) string).mpr
    (.inr ⟨by decide, by decide⟩)

/-- `%5d` of -42 takes six characters. -/
theorem number_overfills : ¬ Emits cputch (.constant (bytesOf "%5d")) 1 (oneArg (intArg (-42)))
    (console [] (by decide)) (field .none 5 (bytesOf "-") (numeralText 10 42)) 3 (oneArg (intArg (-42))).tail := by
  have string : StringAt ((Object.constant (bytesOf "%5d")).view
      (console [] (by decide)).state.memory.image) 1 (bytesOf "5d") := (constant_string (by decide)).tail
  obtain ⟨padc, next, pads, returns, emitted⟩ := number_returns (cputch_keeps _) rfl .d .none 0
    (.digits 5 : Given (oneArg (intArg (-42))) _ _ _) (by decide) string
  intro emits
  have same := (emits_iff returns emitted).mp emits
  exact absurd (congrArg List.length same) (by simp; decide)

end Ucore.Libs.Printfmt
