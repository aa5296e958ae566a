import Ucore.Libs.Printfmt.Fields

namespace Ucore.Libs.Printfmt

open Ucore.Data Ucore.Mm

/-! The rounds of `vprintfmt`: a character of the format, or an escape. -/

variable {σ : Type} {sink : Sink σ} {image : Image} {invariant : σ → Prop} {out next : Output σ}
  {text : Object} {fmt after : Nat} {ap left : VaList} {bytes spec tail rest : List UInt8} {ch : UInt8}
  {memory : KernelMemory} {result : Except Stop (Output σ)}

theorem round_end (keeps : Keeps sink image invariant) (before : invariant out.state)
    (string : StringAt (text.view image) fmt []) (ap : VaList) :
    Returns (fun fuel => vprintfmtLoop sink fuel text fmt ap out) out := by
  refine .round (.of_constant fun fuel => ?_)
  rw [vprintfmtLoop, fetch_ok (keeps.reads _ before) string, ok_bind]
  rfl

theorem round_literal (keeps : Keeps sink image invariant) (before : invariant out.state)
    (string : StringAt (text.view image) fmt (ch :: rest)) (plain : ch ≠ '%'.toUInt8) :
    ∃ next, Extends invariant out (chars [ch]) next ∧ ∀ ap result,
      Ends (fun fuel => vprintfmtLoop sink fuel text (fmt + 1) ap next) result →
        Ends (fun fuel => vprintfmtLoop sink fuel text fmt ap out) result := by
  have isChar : ch ≠ 0 := fun zero => string.noZero (by simp [zero])
  obtain ⟨next, put, one⟩ := keeps.emit before ch.toNat
  refine ⟨next, one, fun ap result others => .round ?_⟩
  simp only [vprintfmtLoop, fetch_ok (keeps.reads _ before) string, ok_bind, List.headD_cons,
    if_pos plain, if_neg isChar, put]
  exact others

theorem round_literals (keeps : Keeps sink image invariant) (before : invariant out.state)
    (string : StringAt (text.view image) fmt (bytes ++ rest)) (plain : '%'.toUInt8 ∉ bytes) :
    ∃ next, Extends invariant out (chars bytes) next ∧ ∀ ap result,
      Ends (fun fuel => vprintfmtLoop sink fuel text (fmt + bytes.length) ap next) result →
        Ends (fun fuel => vprintfmtLoop sink fuel text fmt ap out) result := by
  induction bytes generalizing fmt out with
  | nil => exact ⟨out, .refl before, fun _ _ others => others⟩
  | cons ch bytes ih =>
      have isPlain : ch ≠ '%'.toUInt8 := fun same => plain (by simp [same])
      obtain ⟨middle, one, first⟩ := round_literal keeps before string isPlain
      obtain ⟨next, more, others⟩ := ih one.state string.tail fun member =>
        plain (List.mem_cons_of_mem _ member)
      have shift : fmt + (ch :: bytes).length = fmt + 1 + bytes.length := by
        rw [List.length_cons]
        omega
      exact ⟨next, one.trans more, fun ap result ends => first ap result (others ap result (shift ▸ ends))⟩

theorem round_escape (keeps : Keeps sink image invariant) (before : invariant out.state)
    (string : StringAt (text.view image) fmt ('%'.toUInt8 :: rest))
    (escape : Returns (fun fuel => processEscape sink text (printfmt sink fuel) fuel (fmt + 1) ap out)
      (after, left, next))
    (others : Ends (fun fuel => vprintfmtLoop sink fuel text after left next) result) :
    Ends (fun fuel => vprintfmtLoop sink fuel text fmt ap out) result := by
  refine .round ?_
  have percent : ¬ '%'.toUInt8 ≠ '%'.toUInt8 := not_not.mpr rfl
  simp only [vprintfmtLoop, fetch_ok (keeps.reads _ before) string, ok_bind, List.headD_cons,
    if_neg percent]
  exact Ends.bind escape others

theorem round_escape_error {stop : Stop} (keeps : Keeps sink image invariant)
    (before : invariant out.state) (string : StringAt (text.view image) fmt ('%'.toUInt8 :: rest))
    (escape : Ends (fun fuel => processEscape sink text (printfmt sink fuel) fuel (fmt + 1) ap out)
      (.error stop)) :
    Ends (fun fuel => vprintfmtLoop sink fuel text fmt ap out) (.error stop) := by
  refine .round ?_
  have percent : ¬ '%'.toUInt8 ≠ '%'.toUInt8 := not_not.mpr rfl
  simp only [vprintfmtLoop, fetch_ok (keeps.reads _ before) string, ok_bind, List.headD_cons,
    if_neg percent]
  exact escape.bind_error

theorem round_fails {stop : Stop} (keeps : Keeps sink image invariant) (before : invariant out.state)
    (string : StringAt (text.view image) fmt ('%'.toUInt8 :: (spec ++ ch :: tail)))
    (all : ∀ ch ∈ spec, isSpec ch = true) (stops : isSpec ch ≠ true)
    (fails : Ends (fun fuel => convert sink text (printfmt sink fuel) fuel ch
      (fmt + 1 + spec.length + 1) (spec.foldl Scan.step (.start ap)).ap
      (spec.foldl Scan.step (.start ap)).finish out) (.error stop)) :
    Ends (fun fuel => vprintfmtLoop sink fuel text fmt ap out) (.error stop) :=
  round_escape_error keeps before string
    (processEscape_ends keeps before string.tail all stops rfl rfl fails)

theorem round_converts (keeps : Keeps sink image invariant) (before : invariant out.state)
    (string : StringAt (text.view image) fmt ('%'.toUInt8 :: (spec ++ ch :: tail)))
    (all : ∀ ch ∈ spec, isSpec ch = true) (stops : isSpec ch ≠ true)
    (converts : Returns (fun fuel => convert sink text (printfmt sink fuel) fuel ch
      (fmt + 1 + spec.length + 1) (spec.foldl Scan.step (.start ap)).ap
      (spec.foldl Scan.step (.start ap)).finish out) (after, left, next))
    (others : Ends (fun fuel => vprintfmtLoop sink fuel text after left next) result) :
    Ends (fun fuel => vprintfmtLoop sink fuel text fmt ap out) result :=
  round_escape keeps before string
    (processEscape_ends keeps before string.tail all stops rfl rfl converts) others

theorem literal_returns (keeps : Keeps sink image invariant) (before : invariant out.state)
    (string : StringAt (text.view image) 0 bytes) (plain : '%'.toUInt8 ∉ bytes) (ap : VaList) :
    ∃ next, Returns (vprintfmt sink text ap out) next ∧ Extends invariant out (chars bytes) next := by
  rw [← List.append_nil bytes] at string
  obtain ⟨next, copied, ends⟩ := round_literals keeps before string plain
  exact ⟨next, ends ap _ (round_end keeps copied.state string.skip ap), copied⟩

end Ucore.Libs.Printfmt
