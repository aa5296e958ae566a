import Ucore.Libs.Printfmt.Rounds

namespace Ucore.Libs.Printfmt

open Ucore.Data Ucore.Mm

/-! `vsnprintf` writes what fits into the buffer and counts the rest. -/

variable {memory after : KernelMemory} {str size : Nat} {text : Object} {ap : VaList}
  {out next : Output Buffer}

/-- The buffer holds the beginning of the output, and nothing else was written. -/
structure Filled (memory : KernelMemory) (str size : Nat) (out : Output Buffer) : Prop where
  ebuf : out.state.b.ebuf = str + (size - 1)
  buf : out.state.b.buf = str + min out.emitted.length (size - 1)
  cnt : out.state.b.cnt = wrap32 out.emitted.length
  holds : out.state.memory.image.Holds str ((out.emitted.take (size - 1)).map UInt8.ofInt)
  mapped : ∀ address, str ≤ address → address < str + size → out.state.memory.image address ≠ none
  frame : ∀ address, address < str ∨ str + size ≤ address →
    out.state.memory.image address = memory.image address

/-- A buffer that is mapped lies in the part of the address space that the kernel uses. -/
theorem buffer_bounds (room : 0 < size)
    (mapped : ∀ address, str ≤ address → address < str + size → memory.image address ≠ none) :
    mappedBase ≤ str ∧ str + size ≤ 2 ^ 64 := by
  have first := memory.mapped str (mapped str (by omega) (by omega))
  have last := memory.mapped (str + size - 1) (mapped (str + size - 1) (by omega) (by omega))
  omega

namespace Filled

theorem start (room : 0 < size) (fits : str + size ≤ 2 ^ 64)
    (mapped : ∀ address, str ≤ address → address < str + size → memory.image address ≠ none) :
    Filled memory str size (.start { memory, b := sprintbuf str size }) where
  ebuf := by
    simp only [Output.start, sprintbuf, uint64Sub, uint64]
    omega
  buf := by simp [Output.start, sprintbuf]
  cnt := (by decide : (0 : Int) = wrap32 0)
  holds := by
    rw [Output.start, List.take_nil]
    trivial
  mapped := mapped
  frame _ _ := rfl

theorem store {ch : Int} (filled : Filled memory str size out) (room : 0 < size)
    (stored : out.state.store ch = .ok after) :
    after.image.Holds str ((out.emitted.take (size - 1)).map UInt8.ofInt ++ [UInt8.ofInt ch]) ∧
      (∀ address, str ≤ address → address < str + size → after.image address ≠ none) ∧
      ∀ address, address < str ∨ str + size ≤ address → after.image address = memory.image address := by
  have image := storeByte_image stored
  have inside : out.state.b.buf < str + size := by
    rw [filled.buf]
    omega
  refine ⟨?_, fun address low high => ?_, fun address outside => ?_⟩
  · have place : out.state.b.buf =
        str + ((out.emitted.take (size - 1)).map UInt8.ofInt).length := by
      rw [filled.buf, List.length_map, List.length_take, Nat.min_comm]
    rw [image, place]
    exact filled.holds.update_end _
  · rw [image, Function.update_apply]
    split
    · exact Option.some_ne_none _
    · exact filled.mapped address low high
  · have low : str ≤ out.state.b.buf := by
      rw [filled.buf]
      exact Nat.le_add_right _ _
    rw [image, Function.update_of_ne (by omega)]
    exact filled.frame address outside

theorem emit {ch : Int} (filled : Filled memory str size out) (room : 0 < size)
    (fits : str + size ≤ 2 ^ 64) (put : emit sprintputch ch out = .ok next) :
    Filled memory str size next := by
  obtain ⟨state, stepped, done⟩ := bind_eq_ok.mp put
  cases done
  have counted : wrap32 (out.state.b.cnt + 1) = wrap32 ((out.emitted ++ [ch]).length : Nat) := by
    rw [filled.cnt, wrap32_wrap32_add, List.length_append, List.length_singleton, Nat.cast_succ]
  have length : (out.emitted ++ [ch]).length = out.emitted.length + 1 := List.length_append
  have stepped : Buffer.put ch out.state = .ok state := stepped
  by_cases fitting : out.state.b.buf < out.state.b.ebuf
  · simp only [Buffer.put, if_pos fitting] at stepped
    obtain ⟨after, stored, done⟩ := bind_eq_ok.mp stepped
    cases done
    obtain ⟨holds, mapped, frame⟩ := filled.store room stored
    rw [filled.buf, filled.ebuf] at fitting
    refine ⟨filled.ebuf, ?_, counted, ?_, mapped, frame⟩
    · simp only [filled.buf, length, uint64]
      omega
    · rw [List.take_of_length_le (by rw [length]; omega), List.map_append, List.map_singleton]
      rwa [List.take_of_length_le (by omega)] at holds
  · simp only [Buffer.put, if_neg fitting, Except.ok.injEq] at stepped
    cases stepped
    rw [filled.buf, filled.ebuf] at fitting
    refine ⟨filled.ebuf, ?_, counted, ?_, filled.mapped, filled.frame⟩
    · simp only [filled.buf, length]
      omega
    · rw [List.take_append_of_le_length (by omega)]
      exact filled.holds

/-- A filled buffer takes every further character. -/
theorem keeps (room : 0 < size) (fits : str + size ≤ 2 ^ 64) :
    Keeps sprintputch (fun _ => none) fun buffer =>
      ∃ emitted, Filled memory str size ⟨buffer, emitted⟩ where
  reads _ _ _ _ read := by cases read
  putch ch buffer filled := by
    obtain ⟨emitted, filled⟩ := filled
    have put : ∃ next, Buffer.put ch buffer = .ok next := by
      by_cases fitting : buffer.b.buf < buffer.b.ebuf
      · have readable := filled.mapped buffer.b.buf (by rw [filled.buf]; omega) (by rw [filled.buf]; omega)
        obtain ⟨after, stored⟩ := storeByte_ok (UInt8.ofInt ch) readable
        simp only [Buffer.put, if_pos fitting, Buffer.store, stored, ok_bind]
        exact ⟨_, rfl⟩
      · simp only [Buffer.put, if_neg fitting]
        exact ⟨_, rfl⟩
    obtain ⟨next, put⟩ := put
    exact ⟨next, put, emitted ++ [ch], filled.emit room fits (bind_eq_ok.mpr ⟨next, put, rfl⟩)⟩

/-- What is outside of the buffer can be read all the time. -/
theorem keeps_outside (room : 0 < size) (fits : str + size ≤ 2 ^ 64) :
    Keeps sprintputch (memory.image.outside str size) fun buffer =>
      ∃ emitted, Filled memory str size ⟨buffer, emitted⟩ where
  reads buffer filled address byte read := by
    obtain ⟨emitted, filled⟩ := filled
    rw [Image.outside, Option.ite_none_left_eq_some] at read
    exact (filled.frame address (by omega)).trans read.2
  putch := (Filled.keeps room fits).putch

end Filled

/-- The output is cut to what fits before the terminator, and counted in full. -/
theorem vsnprintf_truncates (memory : KernelMemory) (str size : Nat) (text : Object) (ap : VaList)
    (isAddress : str < 2 ^ 64) :
    (str = 0 ∨ size = 0 → Returns (vsnprintf memory str size text ap) (-E_INVAL, memory)) ∧
    ∀ out, str ≠ 0 → 1 ≤ size → str + size ≤ 2 ^ 64 →
      (∀ address, str ≤ address → address < str + size → memory.image address ≠ none) →
      Returns (vprintfmt sprintputch text ap (.start { memory, b := sprintbuf str size })) out →
      out.emitted.length < 2 ^ 31 →
      ∃ after, Returns (vsnprintf memory str size text ap) (out.emitted.length, after) ∧
        after.image.Holds str ((out.emitted.take (size - 1)).map UInt8.ofInt ++ [0]) ∧
        ∀ address, address < str ∨ str + size ≤ address →
          after.image address = memory.image address := by
  refine ⟨fun refused => ?_, fun out notNull room fits mapped returns short => ?_⟩
  · refine Returns.of_constant fun fuel => ?_
    rw [vsnprintf, if_pos]
    rcases refused with isNull | isEmpty
    · exact .inl isNull
    · rcases Nat.eq_zero_or_pos str with isNull | isPositive
      · exact .inl isNull
      · right
        simp only [sprintbuf, isEmpty, uint64Sub, uint64]
        omega
  · have preserves : Preserves sprintputch (Filled memory str size) :=
      fun ch out next put filled => filled.emit room fits put
    obtain ⟨fuel, done⟩ := returns.some_fuel
    have filled := preserves.vprintfmtLoop done (.start room fits mapped)
    have readable := filled.mapped out.state.b.buf (by rw [filled.buf]; omega) (by rw [filled.buf]; omega)
    obtain ⟨after, stored⟩ := storeByte_ok (UInt8.ofInt 0) readable
    obtain ⟨holds, _, frame⟩ := filled.store room stored
    refine ⟨after, ?_, holds, frame⟩
    have accepted : ¬ (str = 0 ∨ (sprintbuf str size).buf > (sprintbuf str size).ebuf) := by
      simp only [sprintbuf, uint64Sub, uint64]
      omega
    have cnt : out.state.b.cnt = out.emitted.length := by
      rw [filled.cnt, wrap32_of_fits (by omega) (by omega)]
    obtain ⟨enough, returns⟩ := returns
    refine ⟨enough, fun fuel more => ?_⟩
    simp only [vsnprintf, if_neg accepted, returns fuel more, ok_bind]
    refine bind_eq_ok.mpr ⟨after, stored, ?_⟩
    rw [cnt]

/-- Two characters of four and the terminator fill three bytes. -/
theorem vsnprintf_truncates_abcd : ∃ after,
    Returns (vsnprintf (stringMemory (bytesOf "buf") (by decide)) stringAddress 3
      (.constant (bytesOf "abcd")) (oneArg (intArg 0))) (4, after) ∧
    after.image.Holds stringAddress (bytesOf "ab" ++ [0]) := by
  have room : stringAddress + 3 ≤ 2 ^ 64 := by decide
  have mapped (address : Nat) (low : stringAddress ≤ address) (high : address < stringAddress + 3) :
      (stringMemory (bytesOf "buf") (by decide)).image address ≠ none :=
    (Image.ofBytes_holds stringAddress (bytesOf "buf" ++ [0])).readable low (Nat.lt_succ_of_lt high)
  have start := Filled.start (by decide) room mapped
  have begins : ∃ emitted, Filled (stringMemory (bytesOf "buf") (by decide)) stringAddress 3
      ⟨{ memory := stringMemory (bytesOf "buf") (by decide), b := sprintbuf stringAddress 3 }, emitted⟩ :=
    ⟨[], start⟩
  have copies : ∃ out, Returns (vprintfmt sprintputch (.constant (bytesOf "abcd")) (oneArg (intArg 0))
      (.start { memory := stringMemory (bytesOf "buf") (by decide), b := sprintbuf stringAddress 3 })) out ∧
      Extends _ _ (chars (bytesOf "abcd")) out :=
    literal_returns (Filled.keeps (by decide) room) begins (constant_string (by decide)) (by decide) _
  obtain ⟨out, returns, copied⟩ := copies
  have emitted : out.emitted = chars (bytesOf "abcd") := copied.emitted
  obtain ⟨after, result, holds, _⟩ := (vsnprintf_truncates (stringMemory (bytesOf "buf") (by decide))
    stringAddress 3 (.constant (bytesOf "abcd")) (oneArg (intArg 0)) (by decide)).2 out (by decide)
    (by decide) room mapped returns (by rw [emitted]; decide)
  rw [emitted] at result holds
  exact ⟨after, result, holds⟩

end Ucore.Libs.Printfmt
