import Ucore.Libs.Printfmt.Conversions

namespace Ucore.Libs.Printfmt

open Ucore.Data Ucore.Mm

/-! The scan of the format ends, and what is no escape is copied. -/

variable {σ : Type} {sink : Sink σ} {image : Image} {invariant : σ → Prop} {out next : Output σ}
  {text : Object} {fmt : Nat} {ap left : VaList} {memory : KernelMemory} {ch : UInt8}
  {bytes spec tail rest : List UInt8}

theorem flag_arguments (escape : Escape) (ap : VaList) (ch : UInt8) :
    (Scan.flag escape ap ch).2 = if ch = '*'.toUInt8 then ap.tail else ap := by
  rw [Scan.flag]
  by_cases minus : ch = '-'.toUInt8
  · rw [if_pos minus, minus]
    rfl
  by_cases zero : ch = '0'.toUInt8
  · rw [if_neg minus, if_pos zero, zero]
    rfl
  rw [if_neg minus, if_neg zero]
  by_cases star : ch = '*'.toUInt8
  · rw [if_pos star, if_pos star]
  rw [if_neg star, if_neg star]
  split
  · rfl
  · split <;> rfl

theorem scan_arguments (scan : Scan) (spec : List UInt8) :
    (spec.foldl Scan.step scan).ap = scan.ap.drop (spec.count '*'.toUInt8) := by
  induction spec generalizing scan with
  | nil => rfl
  | cons ch spec ih =>
      rw [List.foldl_cons, ih]
      by_cases star : ch = '*'.toUInt8
      · have noNumber : scan.inNumber ch ≠ true := fun number =>
          absurd (Scan.inNumber_isDigit number) (by rw [star]; decide)
        rw [Scan.step_flag noNumber, flag_arguments, if_pos star, star, List.count_cons_self]
        rfl
      · have same : (scan.step ch).ap = scan.ap := by
          by_cases number : scan.inNumber ch = true
          · rw [Scan.step, if_pos number]
          · rw [Scan.step_flag number, flag_arguments, if_neg star]
        rw [same, List.count_cons_of_ne star]

theorem percent_notMem (all : ∀ ch ∈ spec, isSpec ch = true) : '%'.toUInt8 ∉ spec := fun member =>
  absurd (all _ member) (by decide)

theorem rewind_ok (le : image.Le memory.image)
    (string : StringAt (text.view image) fmt ('%'.toUInt8 :: (spec ++ tail)))
    (plain : '%'.toUInt8 ∉ spec) :
    rewind memory text (fmt + 1 + spec.length) = .ok (fmt + 1) := by
  induction spec using List.reverseRecOn generalizing tail with
  | nil =>
      have read := fetch_ok le string
      rw [List.headD_cons] at read
      rw [List.length_nil, Nat.add_zero, rewind, read, ok_bind]
      exact if_neg (not_not.mpr rfl)
  | append_singleton spec ch ih =>
      have other : ch ≠ '%'.toUInt8 := fun same => plain (by simp [same])
      rw [List.append_assoc] at string
      have read := fetch_ok le string.tail.skip
      rw [List.singleton_append, List.headD_cons] at read
      have shift : fmt + 1 + (spec ++ [ch]).length = fmt + 1 + spec.length + 1 := by
        rw [List.length_append, List.length_singleton]
        omega
      rw [shift, rewind, read, ok_bind, if_pos other]
      exact ih string fun member => plain (List.mem_append_left _ member)

theorem convert_default (keeps : Keeps sink image invariant) (before : invariant out.state)
    (string : StringAt (text.view image) fmt ('%'.toUInt8 :: (spec ++ tail)))
    (all : ∀ ch ∈ spec, isSpec ch = true) (other : isConversion ch ≠ true) (escape : Escape)
    (ap : VaList) :
    ∃ next, Returns (fun fuel => convert sink text (printfmt sink fuel) fuel ch
      (fmt + 1 + spec.length + 1) ap escape out) (fmt + 1, ap, next) ∧
      Extends invariant out (chars ['%'.toUInt8]) next := by
  obtain ⟨next, put, one⟩ := keeps.emit before '%'.toNat
  have others := isConversion_iff.not.mp other
  simp only [not_or] at others
  obtain ⟨c, e, s, d, u, o, p, x, percent⟩ := others
  refine ⟨next, .of_constant fun fuel => ?_, one⟩
  rw [convert]
  simp only [if_neg c, if_neg e, if_neg s, if_neg d, if_neg u, if_neg o, if_neg p, if_neg x,
    if_neg percent, put, ok_bind, Nat.add_sub_cancel]
  rw [rewind_ok (keeps.reads _ one.state) string (percent_notMem all), ok_bind]

/-- Of an escape that is not recognized the `%` is printed, and the scan goes on behind it. -/
theorem escape_rejected (keeps : Keeps sink image invariant) (before : invariant out.state)
    (string : StringAt (text.view image) fmt ('%'.toUInt8 :: (spec ++ tail)))
    (all : ∀ ch ∈ spec, isSpec ch = true) (stops : isSpec (tail.headD 0) ≠ true)
    (other : isConversion (tail.headD 0) ≠ true) (ap : VaList) :
    ∃ next, Returns (fun fuel => processEscape sink text (printfmt sink fuel) fuel (fmt + 1) ap out)
        (fmt + 1, ap.drop (spec.count '*'.toUInt8), next) ∧
      Extends invariant out (chars ['%'.toUInt8]) next := by
  obtain ⟨next, returns, one⟩ := convert_default keeps before string all other
    (spec.foldl Scan.step (.start ap)).finish (ap.drop (spec.count '*'.toUInt8))
  exact ⟨next, processEscape_ends keeps before string.tail all stops (scan_arguments (.start ap) spec) rfl
    returns, one⟩

/-- What a format is made of: characters, escapes, and what is not recognized after a `%`. -/
theorem format_induction {motive : List UInt8 → Prop} (done : motive [])
    (literal : ∀ ch rest, ch ≠ '%'.toUInt8 → motive rest → motive (ch :: rest))
    (escape : ∀ spec ch tail, (∀ ch ∈ spec, isSpec ch = true) → isSpec ch ≠ true →
      isConversion ch = true → motive tail → motive ('%'.toUInt8 :: (spec ++ ch :: tail)))
    (rejected : ∀ spec tail, (∀ ch ∈ spec, isSpec ch = true) → isSpec (tail.headD 0) ≠ true →
      isConversion (tail.headD 0) ≠ true → motive (spec ++ tail) →
        motive ('%'.toUInt8 :: (spec ++ tail)))
    (rest : List UInt8) : motive rest := by
  match rest with
  | [] => exact done
  | ch :: rest =>
      by_cases plain : ch ≠ '%'.toUInt8
      · exact literal ch rest plain (format_induction done literal escape rejected rest)
      · rw [not_not.mp plain]
        obtain ⟨spec, tail, split, all, stops⟩ := split_run isSpec rest
        have isEnd : isSpec (tail.headD 0) ≠ true := by
          cases tail with
          | nil => decide
          | cons ch tail => exact stops ch rfl
        by_cases conversion : isConversion (tail.headD 0) = true
        · cases tail with
          | nil => exact absurd conversion (by decide)
          | cons ch tail =>
              have shorter : tail.length < rest.length + 1 := by
                rw [split, List.length_append, List.length_cons]
                omega
              rw [split]
              exact escape spec ch tail all isEnd conversion
                (format_induction done literal escape rejected tail)
        · have onward := format_induction done literal escape rejected rest
          rw [split] at onward ⊢
          exact rejected spec tail all isEnd conversion onward
termination_by rest.length

/-- From every place of the format the scan ends. -/
theorem vprintfmtLoop_halts {rest : List UInt8} {fmt : Nat} {out : Output σ}
    (keeps : Keeps sink image invariant) (before : invariant out.state)
    (string : StringAt (text.view image) fmt rest) (ap : VaList) :
    Halts BadArgument (fun fuel => vprintfmtLoop sink fuel text fmt ap out)
      fun next => invariant next.state := by
  induction rest using format_induction generalizing fmt out ap with
  | done => exact .of_returns (round_end keeps before string ap) before
  | literal ch rest plain ih =>
      obtain ⟨next, one, ends⟩ := round_literal keeps before string plain
      exact (ih one.state string.tail ap).via (ends ap)
  | escape spec ch tail all stops conversion ih =>
      have onward := string.tail.skip.tail
      rcases convert_halts keeps before text (spec.foldl Scan.step (.start ap)).finish
        (spec.foldl Scan.step (.start ap)).ap (fmt + 1 + spec.length + 1) conversion with returns | fails
      · obtain ⟨⟨after, left, next⟩, returns, place, afterwards⟩ := returns
        change after = fmt + 1 + spec.length + 1 at place
        subst place
        exact (ih afterwards onward left).via fun _ others =>
          round_converts keeps before string all stops returns others
      · obtain ⟨stop, fails, isAllowed⟩ := fails
        exact .of_error (round_fails keeps before string all stops fails) isAllowed
  | rejected spec tail all stops other ih =>
      obtain ⟨next, escape, one⟩ := escape_rejected keeps before string all stops other ap
      exact (ih one.state string.tail _).via fun _ others =>
        round_escape keeps before string escape others

theorem rejected_copied (keeps : Keeps sink image invariant) (before : invariant out.state)
    (string : StringAt (text.view image) fmt ('%'.toUInt8 :: (spec ++ tail)))
    (all : ∀ ch ∈ spec, isSpec ch = true) (stops : isSpec (tail.headD 0) ≠ true)
    (other : isConversion (tail.headD 0) ≠ true) (ap : VaList) :
    ∃ next, Extends invariant out (chars ('%'.toUInt8 :: spec)) next ∧ ∀ result,
      Ends (fun fuel => vprintfmtLoop sink fuel text (fmt + 1 + spec.length)
        (ap.drop (spec.count '*'.toUInt8)) next) result →
        Ends (fun fuel => vprintfmtLoop sink fuel text fmt ap out) result := by
  obtain ⟨middle, escape, one⟩ := escape_rejected keeps before string all stops other ap
  obtain ⟨next, copied, copies⟩ :=
    round_literals keeps one.state string.tail (percent_notMem all)
  exact ⟨next, one.trans copied, fun result others =>
    round_escape keeps before string escape (copies _ result others)⟩

/-- The format of exactly this many bytes is scanned to its end; an escape that is not recognized, or
that the end of the format cuts off, is copied once. -/
theorem vprintfmt_scans (keeps : Keeps sink image invariant) {base : Nat}
    (format : StringAt image base bytes) :
    (∀ ap out, invariant out.state → ∃ result,
      Ends (vprintfmt sink (.memory base (bytes.length + 1)) ap out) result ∧
        ∀ stop, result = .error stop → BadArgument stop) ∧
    (∀ lead spec ch rest, bytes = lead ++ '%'.toUInt8 :: (spec ++ ch :: rest) →
      (∀ ch ∈ spec, isSpec ch = true) → isSpec ch ≠ true → isConversion ch ≠ true →
      ∀ ap out, invariant out.state → ∃ next, invariant next.state ∧
        next.emitted = out.emitted ++ chars ('%'.toUInt8 :: (spec ++ [ch])) ∧
        ∀ result,
          Ends (fun fuel => vprintfmtLoop sink fuel (.memory base (bytes.length + 1)) lead.length ap out)
            result ↔
          Ends (fun fuel => vprintfmtLoop sink fuel (.memory base (bytes.length + 1))
            (lead.length + 1 + spec.length + 1) (ap.drop (spec.count '*'.toUInt8)) next) result) ∧
    (∀ lead spec, bytes = lead ++ '%'.toUInt8 :: spec → (∀ ch ∈ spec, isSpec ch = true) →
      ∀ ap out, invariant out.state → ∃ next, invariant next.state ∧
        next.emitted = out.emitted ++ chars ('%'.toUInt8 :: spec) ∧
        Returns (fun fuel => vprintfmtLoop sink fuel (.memory base (bytes.length + 1)) lead.length ap out)
          next) := by
  have string := memory_string format (Nat.lt_succ_self _)
  generalize Object.memory base (bytes.length + 1) = text at string ⊢
  refine ⟨fun ap out before => (vprintfmtLoop_halts keeps before string ap).ends, ?_, ?_⟩
  · intro lead spec ch rest split all stops other ap out before
    subst split
    have escape := string.skip
    rw [Nat.zero_add] at escape
    obtain ⟨middle, copied, copies⟩ := rejected_copied keeps before escape all stops other ap
    have plain : ch ≠ '%'.toUInt8 := fun same => other (by rw [same]; decide)
    obtain ⟨next, one, literal⟩ := round_literal keeps copied.state escape.tail.skip plain
    have text := copied.trans one
    have onward (result : Except Stop (Output σ)) (others : Ends (fun fuel => vprintfmtLoop sink fuel _
        (lead.length + 1 + spec.length + 1) (ap.drop (spec.count '*'.toUInt8)) next) result) :=
      copies result (literal _ result others)
    refine ⟨next, text.state, ?_, fun result => ⟨fun whole => ?_, onward result⟩⟩
    · rw [text.emitted, ← chars_append, List.cons_append]
    · obtain ⟨result', others, _⟩ :=
        (vprintfmtLoop_halts keeps text.state escape.tail.skip.tail (ap.drop (spec.count '*'.toUInt8))).ends
      rw [whole.unique (onward result' others)]
      exact others
  · intro lead spec split all ap out before
    subst split
    have escape := string.skip
    rw [Nat.zero_add, ← List.append_nil spec] at escape
    obtain ⟨next, copied, copies⟩ :=
      rejected_copied keeps before escape all (by decide) (by decide) ap
    exact ⟨next, copied.state, copied.emitted,
      copies _ (round_end keeps copied.state escape.tail.skip _)⟩

theorem vprintfmt_scans_bad : ∃ next : Output Console,
    next.emitted = chars (bytesOf "%-z") ∧
    Returns (vprintfmt cputch (.memory stringAddress 4) (oneArg (intArg 0))
      (console (bytesOf "%-z") (by decide))) next := by
  have format := stringMemory_string (bytesOf "%-z") (by decide) (by decide)
  have string := memory_string format (by decide : (bytesOf "%-z").length < 4)
  have keeps := cputch_keeps (stringMemory (bytesOf "%-z") (by decide))
  have scans := vprintfmt_scans keeps format
  obtain ⟨next, after, emitted, ends⟩ := scans.2.1 [] (bytesOf "-") 'z'.toUInt8 [] rfl
    (List.forall_mem_singleton.mpr (by decide)) (by decide) (by decide) (oneArg (intArg 0))
    (console (bytesOf "%-z") (by decide)) rfl
  exact ⟨next, emitted, (ends _).mpr (round_end keeps after string.tail.tail.tail _)⟩

end Ucore.Libs.Printfmt
