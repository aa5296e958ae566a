import Ucore.Libs.Printfmt

namespace Ucore.Libs.Printfmt

open Ucore.Data Ucore.Mm

/-! What a formatter can do to its output: nothing but `putch`. -/

variable {σ : Type} {sink : Sink σ} {kept : Output σ → Prop} {out middle next : Output σ}
  {image : Image} {invariant : σ → Prop} {first second : List Int} {fuel : Nat} {text s : Object}
  {escape : Escape}

/-- The sink takes every character, and leaves alone what the image has. -/
structure Keeps (sink : Sink σ) (image : Image) (invariant : σ → Prop) : Prop where
  reads : ∀ state, invariant state → image.Le (sink.memory state).image
  putch : ∀ ch state, invariant state → ∃ next, sink.putch ch state = .ok next ∧ invariant next

/-- The output went on with these characters. -/
structure Extends (invariant : σ → Prop) (out : Output σ) (text : List Int) (next : Output σ) :
    Prop where
  emitted : next.emitted = out.emitted ++ text
  state : invariant next.state

/-- The characters of bytes. -/
def chars (bytes : List UInt8) : List Int := bytes.map fun byte => (byte.toNat : Int)

@[simp] theorem chars_append (first second : List UInt8) :
    chars (first ++ second) = chars first ++ chars second :=
  List.map_append

theorem chars_replicate (count : Nat) (byte : UInt8) :
    chars (List.replicate count byte) = List.replicate count (byte.toNat : Int) :=
  List.map_replicate

@[simp] theorem chars_length (bytes : List UInt8) : (chars bytes).length = bytes.length :=
  List.length_map _

theorem cputch_keeps (memory : KernelMemory) :
    Keeps cputch memory.image fun console => console.memory = memory where
  reads console same := by
    rw [← same]
    exact fun _ _ read => read
  putch _ console same := ⟨{ console with cnt := wrap32 (console.cnt + 1) }, rfl, same⟩

/-- Where the examples print, with one string in memory. -/
def console (bytes : List UInt8) (fits : bytes.length < 2 ^ 20) : Output Console :=
  .start { memory := stringMemory bytes fits, cnt := 0 }

theorem Extends.refl (before : invariant out.state) : Extends invariant out [] out :=
  ⟨(List.append_nil _).symm, before⟩

theorem Extends.trans (left : Extends invariant out first middle)
    (right : Extends invariant middle second next) : Extends invariant out (first ++ second) next :=
  ⟨by rw [right.emitted, left.emitted, List.append_assoc], right.state⟩

theorem Keeps.emit (keeps : Keeps sink image invariant) (before : invariant out.state) (ch : Int) :
    ∃ next, emit sink ch out = .ok next ∧ Extends invariant out [ch] next := by
  obtain ⟨state, put, after⟩ := keeps.putch ch out.state before
  exact ⟨⟨state, out.emitted ++ [ch]⟩, bind_eq_ok.mpr ⟨state, put, rfl⟩, rfl, after⟩

theorem Keeps.putPad (keeps : Keeps sink image invariant) (before : invariant out.state) (padc : Int)
    (width : Nat) :
    ∃ next, putPad sink padc width out = .ok next ∧
      Extends invariant out (List.replicate width padc) next := by
  induction width generalizing out with
  | zero => exact ⟨out, rfl, .refl before⟩
  | succ width ih =>
      obtain ⟨padded, put, one⟩ := keeps.emit before padc
      obtain ⟨next, done, others⟩ := ih one.state
      exact ⟨next, bind_eq_ok.mpr ⟨padded, put, done⟩, one.trans others⟩

/-- Every `putch` keeps this. -/
def Preserves (sink : Sink σ) (kept : Output σ → Prop) : Prop :=
  ∀ ch out next, emit sink ch out = .ok next → kept out → kept next

namespace Preserves

variable (preserves : Preserves sink kept)

include preserves

theorem putPad {padc : Int} {width : Nat} (done : putPad sink padc width out = .ok next)
    (before : kept out) : kept next := by
  induction width generalizing out with
  | zero =>
      cases done
      exact before
  | succ width ih =>
      obtain ⟨padded, put, done⟩ := bind_eq_ok.mp done
      exact ih done (preserves _ _ _ put before)

theorem printnum {base num : Nat} {padc width : Int}
    (done : printnum sink base padc fuel num width out = .ok next) (before : kept out) :
    kept next := by
  induction fuel generalizing num width out next with
  | zero => cases done
  | succ fuel ih =>
      obtain ⟨leading, done, rest⟩ := bind_eq_ok.mp done
      obtain ⟨digit, _, put⟩ := bind_eq_ok.mp rest
      refine preserves _ _ _ put ?_
      by_cases more : num ≥ base
      · rw [if_pos more] at done
        exact ih done before
      · rw [if_neg more] at done
        exact preserves.putPad done before

theorem putSigned {value : Int} (done : putSigned sink value escape fuel out = .ok next)
    (before : kept out) : kept next := by
  by_cases negative : int64 (uint64OfInt value) < 0
  · simp only [Libs.putSigned, if_pos negative] at done
    obtain ⟨signed, put, done⟩ := bind_eq_ok.mp done
    exact preserves.printnum done (preserves _ _ _ put before)
  · simp only [Libs.putSigned, if_neg negative] at done
    exact preserves.printnum done before

theorem padString {width : Int} (done : padString sink s escape fuel out = .ok (width, next))
    (before : kept out) : kept next := by
  rw [Libs.padString] at done
  split at done
  · obtain ⟨length, _, done⟩ := bind_eq_ok.mp done
    obtain ⟨padded, put, done⟩ := bind_eq_ok.mp done
    cases done
    exact preserves.putPad put before
  · cases done
    exact before

theorem putChars {altflag : Bool} {p : Nat} {precision width left : Int}
    (done : putChars sink s altflag fuel p precision width out = .ok (left, next))
    (before : kept out) : kept next := by
  induction fuel generalizing p precision width out with
  | zero => cases done
  | succ fuel ih =>
      obtain ⟨ch, _, done⟩ := bind_eq_ok.mp done
      split at done
      · obtain ⟨shown, put, done⟩ := bind_eq_ok.mp done
        exact ih done (preserves _ _ _ put before)
      · cases done
        exact before

theorem putString (done : putString sink s escape fuel out = .ok next) (before : kept out) :
    kept next := by
  obtain ⟨⟨width, padded⟩, pad, done⟩ := bind_eq_ok.mp done
  obtain ⟨⟨left, shown⟩, chars, done⟩ := bind_eq_ok.mp done
  exact preserves.putPad done (preserves.putChars chars (preserves.padString pad before))

omit preserves in
theorem putError {printfmt : Object → VaList → Output σ → Except Stop (Output σ)} {err : Int}
    (nested : ∀ text ap out next, printfmt text ap out = .ok next → kept out → kept next)
    (done : putError printfmt err out = .ok next) (before : kept out) : kept next := by
  simp only [Libs.putError] at done
  split at done
  · exact nested _ _ _ _ done before
  · obtain ⟨p, _, done⟩ := bind_eq_ok.mp done
    cases p with
    | none => exact nested _ _ _ _ done before
    | some p => exact nested _ _ _ _ done before

theorem convert {printfmt : Object → VaList → Output σ → Except Stop (Output σ)} {ch : UInt8}
    {fmt after : Nat} {ap left : VaList}
    (nested : ∀ text ap out next, printfmt text ap out = .ok next → kept out → kept next)
    (done : convert sink text printfmt fuel ch fmt ap escape out = .ok (after, left, next))
    (before : kept out) : kept next := by
  have last {run : Except Stop (Output σ)} {after' : Nat} {left' : VaList}
      (keeps : ∀ next, run = .ok next → kept next)
      (done : (run >>= fun out => .ok (after', left', out)) = .ok (after, left, next)) : kept next := by
    obtain ⟨shown, put, done⟩ := bind_eq_ok.mp done
    cases done
    exact keeps _ put
  rw [Libs.convert] at done
  split at done
  · exact last (fun _ put => preserves _ _ _ put before) done
  split at done
  · exact last (fun _ put => putError nested put before) done
  split at done
  · exact last (fun _ put => preserves.putString put before) done
  split at done
  · exact last (fun _ put => preserves.putSigned put before) done
  split at done
  · exact last (fun _ put => preserves.printnum put before) done
  split at done
  · exact last (fun _ put => preserves.printnum put before) done
  split at done
  · obtain ⟨zero, putZero, done⟩ := bind_eq_ok.mp done
    obtain ⟨x, putX, done⟩ := bind_eq_ok.mp done
    have before := preserves _ _ _ putX (preserves _ _ _ putZero before)
    exact last (fun _ put => preserves.printnum put before) done
  split at done
  · exact last (fun _ put => preserves.printnum put before) done
  split at done
  · exact last (fun _ put => preserves _ _ _ put before) done
  · obtain ⟨shown, put, done⟩ := bind_eq_ok.mp done
    obtain ⟨back, _, done⟩ := bind_eq_ok.mp done
    cases done
    exact preserves _ _ _ put before

/-- By induction on the fuel, which also covers the calls for `%e`. -/
theorem vprintfmtLoop {fmt : Nat} {ap : VaList}
    (done : vprintfmtLoop sink fuel text fmt ap out = .ok next) (before : kept out) : kept next := by
  induction fuel generalizing text fmt ap out next with
  | zero => cases done
  | succ fuel ih =>
      obtain ⟨ch, _, done⟩ := bind_eq_ok.mp done
      simp only at done
      split at done
      · split at done
        · cases done
          exact before
        · obtain ⟨shown, put, done⟩ := bind_eq_ok.mp done
          exact ih done (preserves _ _ _ put before)
      · obtain ⟨⟨fmt, ap, shown⟩, put, done⟩ := bind_eq_ok.mp done
        obtain ⟨⟨ch, fmt, ap, escape⟩, _, put⟩ := bind_eq_ok.mp put
        exact ih done (preserves.convert (fun _ _ _ _ done before => ih done before) put before)

end Preserves

end Ucore.Libs.Printfmt
