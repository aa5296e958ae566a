import Ucore.Libs.Printfmt.Rendering

namespace Ucore.Libs.Printfmt

open Ucore.Data Ucore.Mm

/-! Formats behind each other. -/

variable {σ : Type} {sink : Sink σ} {image : Image} {invariant : σ → Prop} {out middle next : Output σ}
  {format : Object} {ap left : VaList} {place : Place} {bytes first second : List UInt8}
  {shown more : List Int}

theorem behind_cons (place : Place) (ch : UInt8) (bytes : List UInt8) :
    behind place (ch :: bytes) = behind (place.next ch) bytes :=
  rfl

/-- What a complete format prints does not depend on what follows. -/
theorem rendered_append (complete : behind place first = .text left) :
    rendered image place (first ++ second) =
      rendered image place first ++ rendered image (.text left) second := by
  induction first generalizing place with
  | nil =>
      cases complete
      rfl
  | cons ch first ih =>
      rw [behind_cons] at complete
      rw [List.cons_append, rendered, rendered, ih complete, List.append_assoc]

theorem conversions_append (complete : behind place first = .text left) :
    conversions (first ++ second) place =
      conversions first place ++ conversions second (.text left) := by
  induction first generalizing place with
  | nil =>
      cases complete
      rfl
  | cons ch first ih =>
      rw [behind_cons] at complete
      rw [List.cons_append, conversions, conversions, ih complete, List.append_assoc]

/-! The characters that were emitted determine the state of the sink. -/

/-- The output went on with these characters, one `putch` for each. -/
def Puts (sink : Sink σ) (out : Output σ) (shown : List Int) (next : Output σ) : Prop :=
  next.emitted = out.emitted ++ shown ∧
    shown.foldlM (fun state ch => sink.putch ch state) out.state = .ok next.state

theorem Puts.trans (first : Puts sink out shown middle) (second : Puts sink middle more next) :
    Puts sink out (shown ++ more) next := by
  refine ⟨by rw [second.1, first.1, List.append_assoc], ?_⟩
  rw [List.foldlM_append, first.2]
  exact second.2

theorem Puts.unique {other : Output σ} (puts : Puts sink out shown next)
    (others : Puts sink out more other) (same : next.emitted = other.emitted) : next = other := by
  obtain ⟨state, emitted⟩ := next
  obtain ⟨otherState, otherEmitted⟩ := other
  obtain rfl : emitted = otherEmitted := same
  obtain rfl : shown = more := List.append_cancel_left (puts.1.symm.trans others.1)
  cases Except.ok.inj (puts.2.symm.trans others.2)
  rfl

theorem emit_puts {ch : Int} (put : emit sink ch out = .ok next) : Puts sink out [ch] next := by
  obtain ⟨state, stepped, done⟩ := bind_eq_ok.mp put
  cases done
  refine ⟨rfl, ?_⟩
  rw [List.foldlM_cons, stepped]
  rfl

theorem vprintfmt_puts (returns : Returns (vprintfmt sink format ap out) next) :
    ∃ shown, Puts sink out shown next := by
  obtain ⟨fuel, done⟩ := returns.some_fuel
  have preserves : Preserves sink fun next => ∃ shown, Puts sink out shown next := by
    intro ch middle next put before
    obtain ⟨shown, puts⟩ := before
    exact ⟨shown ++ [ch], puts.trans (emit_puts put)⟩
  exact preserves.vprintfmtLoop done ⟨[], (List.append_nil _).symm, rfl⟩

/-- A format that is complete and another one behind it print what they print one after the other, with
the arguments that the first one leaves. -/
theorem vprintfmt_append {whole formatFirst formatSecond : Object} (keeps : Keeps sink image invariant)
    (before : invariant out.state) (string : StringAt (whole.view image) 0 (first ++ second))
    (stringFirst : StringAt (formatFirst.view image) 0 first)
    (stringSecond : StringAt (formatSecond.view image) 0 second)
    (complete : behind (.text ap) first = .text left)
    (readable : ∀ conversion ∈ conversions (first ++ second) (.text ap), conversion.Readable image) :
    ∃ middle final, Returns (vprintfmt sink formatFirst ap out) middle ∧
      Returns (vprintfmt sink formatSecond left middle) final ∧
      Returns (vprintfmt sink whole ap out) final := by
  have made : conversions (first ++ second) (.text ap) =
      conversions first (.text ap) ++ conversions second (.text left) := conversions_append complete
  obtain ⟨final, returns, _, emitted⟩ := vprintfmt_renders keeps before string ap readable
  simp only [made, List.forall_mem_append] at readable
  obtain ⟨middle, returnsFirst, between, emittedFirst⟩ :=
    vprintfmt_renders keeps before stringFirst ap readable.1
  obtain ⟨other, returnsSecond, _, emittedSecond⟩ :=
    vprintfmt_renders keeps between stringSecond left readable.2
  obtain ⟨_, puts⟩ := vprintfmt_puts returns
  obtain ⟨_, putsFirst⟩ := vprintfmt_puts returnsFirst
  obtain ⟨_, putsSecond⟩ := vprintfmt_puts returnsSecond
  have same : final.emitted = other.emitted := by
    rw [emitted, emittedSecond, emittedFirst, rendered_append complete, List.append_assoc]
  obtain rfl := puts.unique (putsFirst.trans putsSecond) same
  exact ⟨middle, final, returnsFirst, returnsSecond, returns⟩

/-- The format of the last example, cut behind the percent sign. -/
theorem vprintfmt_append_line : ∃ middle final,
    Returns (vprintfmt cputch (.constant (bytesOf "%d%%")) twoArgs
      (console (bytesOf "hello") (by decide))) middle ∧
    Returns (vprintfmt cputch (.constant (bytesOf " %-8.3s|")) twoArgs.tail middle) final ∧
    Returns (vprintfmt cputch (.constant (bytesOf "%d%%" ++ bytesOf " %-8.3s|")) twoArgs
      (console (bytesOf "hello") (by decide))) final :=
  vprintfmt_append (cputch_keeps (stringMemory (bytesOf "hello") (by decide))) rfl
    (constant_string (by decide)) (constant_string (by decide)) (constant_string (by decide)) rfl
    twoArgs_readable

end Ucore.Libs.Printfmt
