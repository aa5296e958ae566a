import Ucore.Libs.Printfmt.Conversions
import Ucore.Libs.Readline

namespace Ucore.Libs.Readline

open Ucore.Data Ucore.Mm Printfmt

/-! What the user sees of `readline`: a line that can be edited at its end. -/

variable {reader : Reader} {start line edits input : List Int} {c : Int} {bytes front : List UInt8}

/-- A line without its end, which holds no more characters than fit. -/
def edit (line : List Int) (c : Int) : List Int :=
  if c ≥ ' '.toNat then
    if line.length < BUFSIZE - 1 then line ++ [c] else line
  else if c = backspace then
    line.dropLast
  else
    line

def edited (input : List Int) : List Int := input.foldl edit []

/-- The text on the console, where a backspace erases one character. -/
def spell (echo : List Int) : List Int :=
  echo.foldl (fun text c => if c = backspace then text.dropLast else text ++ [c]) []

def LineEnd (c : Int) : Prop := c = '\n'.toNat ∨ c = '\r'.toNat

instance (c : Int) : Decidable (LineEnd c) := inferInstanceAs (Decidable (_ ∨ _))

/-- The index, the buffer and what was echoed are in step with the line. -/
structure InStep (start line : List Int) (reader : Reader) : Prop where
  index : reader.i = line.length
  room : line.length ≤ BUFSIZE - 1
  held : line.map UInt8.ofInt <+: reader.buf.bytes
  echo : ∃ echo, reader.shown = start ++ echo ∧ spell echo = line

theorem InStep.empty (buf : LineBuffer) (shown : List Int) : InStep shown [] { buf, i := 0, shown } where
  index := rfl
  room := Nat.zero_le _
  held := List.nil_prefix
  echo := ⟨[], (List.append_nil shown).symm, rfl⟩

theorem InStep.bounds (inStep : InStep start line reader) :
    0 ≤ reader.i ∧ reader.i ≤ BUFSIZE - 1 := by
  have room := inStep.room
  have index := inStep.index
  simp only [BUFSIZE] at room ⊢
  omega

theorem spell_append (echo : List Int) (c : Int) : spell (echo ++ [c]) =
    if c = backspace then (spell echo).dropLast else spell echo ++ [c] := by
  rw [spell, List.foldl_append, List.foldl_cons, List.foldl_nil, ← spell]

theorem prefix_set (isPrefix : front <+: bytes) (more : front.length < bytes.length) (byte : UInt8) :
    front ++ [byte] <+: bytes.set front.length byte := by
  obtain ⟨rest, rfl⟩ := isPrefix
  cases rest with
  | nil => exact absurd more (by simp)
  | cons old rest =>
      rw [List.set_append_right _ _ (Nat.le_refl _), Nat.sub_self, List.set_cons_zero]
      exact ⟨rest, by rw [List.append_assoc, List.singleton_append]⟩

/-- At the index there is always room for one more byte. -/
theorem InStep.store (inStep : InStep start line reader) (c : Int) :
    ∃ buf, reader.buf.store reader.i c = .ok buf ∧
      line.map UInt8.ofInt ++ [UInt8.ofInt c] <+: buf.bytes := by
  have bounds := inStep.bounds
  have inside : 0 ≤ reader.i ∧ reader.i < BUFSIZE := ⟨bounds.1, by omega⟩
  have place : reader.i.toNat = (line.map UInt8.ofInt).length := by
    rw [inStep.index, Int.toNat_natCast, List.length_map]
  refine ⟨_, if_pos inside, ?_⟩
  simp only [place]
  refine prefix_set inStep.held ?_ _
  rw [reader.buf.isSize, ← place]
  omega

theorem visible_other (visible : c ≥ ' '.toNat) : ¬ c < 0 ∧ c ≠ backspace := by
  change (32 : Int) ≤ c at visible
  rw [backspace]
  omega

theorem edit_append (visible : c ≥ ' '.toNat) (room : line.length < BUFSIZE - 1) :
    edit line c = line ++ [c] := by
  rw [edit, if_pos visible, if_pos room]

theorem edit_full (visible : c ≥ ' '.toNat) (full : ¬ line.length < BUFSIZE - 1) : edit line c = line := by
  rw [edit, if_pos visible, if_neg full]

theorem edit_backspace (line : List Int) : edit line backspace = line.dropLast := by
  rw [edit, if_neg (by decide), if_pos rfl]

theorem edit_other (notVisible : ¬ c ≥ ' '.toNat) (other : c ≠ backspace) : edit line c = line := by
  rw [edit, if_neg notVisible, if_neg other]

theorem InStep.append (inStep : InStep start line reader) (visible : c ≥ ' '.toNat)
    (room : line.length < BUFSIZE - 1) :
    ∃ next, reader.get c = .ok (.reading next) ∧ InStep start (edit line c) next := by
  obtain ⟨buf, stored, held⟩ := inStep.store c
  obtain ⟨echo, shown, spells⟩ := inStep.echo
  have index := inStep.index
  obtain ⟨isChar, notBackspace⟩ := visible_other visible
  have hasRoom : c ≥ ' '.toNat ∧ reader.i < BUFSIZE - 1 := by
    simp only [BUFSIZE] at room ⊢
    exact ⟨visible, by omega⟩
  have next : wrap32 (reader.i + 1) = line.length + 1 := by
    simp only [BUFSIZE] at room
    rw [index, wrap32_of_fits (by omega) (by omega)]
  refine ⟨{ buf, i := line.length + 1, shown := reader.shown ++ [c] }, ?_, ?_⟩
  · rw [Reader.get, if_neg isChar, if_pos hasRoom, stored, ok_bind, next, cputchar]
  · rw [edit_append visible room]
    refine ⟨by simp, ?_, ?_, ⟨echo ++ [c], ?_, ?_⟩⟩
    · rw [List.length_append, List.length_singleton]
      omega
    · rw [List.map_append, List.map_singleton]
      exact held
    · rw [shown, List.append_assoc]
    · rw [spell_append, if_neg notBackspace, spells]

theorem InStep.erase (inStep : InStep start line reader) (some : 0 < line.length) :
    ∃ next, reader.get backspace = .ok (.reading next) ∧ InStep start line.dropLast next := by
  obtain ⟨echo, shown, spells⟩ := inStep.echo
  have index := inStep.index
  have room := inStep.room
  have before : wrap32 (reader.i - 1) = line.length - 1 := by
    simp only [BUFSIZE] at room
    rw [index, wrap32_of_fits (by omega) (by omega)]
  have visible : ¬ (backspace ≥ ' '.toNat ∧ reader.i < BUFSIZE - 1) := fun both =>
    absurd both.1 (by decide)
  have erases : backspace = backspace ∧ reader.i > 0 := ⟨rfl, by omega⟩
  refine ⟨{ reader with i := line.length - 1, shown := reader.shown ++ [backspace] }, ?_, ?_⟩
  · rw [Reader.get, if_neg (by decide), if_neg visible, if_pos erases, before, cputchar]
  · refine ⟨?_, ?_, ?_, ⟨echo ++ [backspace], ?_, ?_⟩⟩
    · rw [List.length_dropLast]
      exact (Nat.cast_pred some).symm
    · rw [List.length_dropLast]
      omega
    · rw [List.map_dropLast]
      exact (List.dropLast_prefix _).trans inStep.held
    · rw [shown, List.append_assoc]
    · rw [spell_append, if_pos rfl, spells]

theorem get_ignored (isChar : ¬ c < 0)
    (noAppend : ¬ (c ≥ ' '.toNat ∧ reader.i < BUFSIZE - 1)) (noErase : ¬ (c = backspace ∧ reader.i > 0))
    (noEnd : ¬ LineEnd c) : reader.get c = .ok (.reading reader) := by
  rw [Reader.get, if_neg isChar, if_neg noAppend, if_neg noErase]
  exact if_neg noEnd

theorem InStep.get (inStep : InStep start line reader) (isChar : 0 ≤ c) (noEnd : ¬ LineEnd c) :
    ∃ next, reader.get c = .ok (.reading next) ∧ InStep start (edit line c) next := by
  have index := inStep.index
  have isChar : ¬ c < 0 := Int.not_lt.mpr isChar
  by_cases visible : c ≥ ' '.toNat
  · by_cases room : line.length < BUFSIZE - 1
    · exact inStep.append visible room
    · have noAppend : ¬ (c ≥ ' '.toNat ∧ reader.i < BUFSIZE - 1) := by
        simp only [BUFSIZE] at room ⊢
        omega
      have noErase : ¬ (c = backspace ∧ reader.i > 0) := fun both =>
        (visible_other visible).2 both.1
      rw [edit_full visible room]
      exact ⟨reader, get_ignored isChar noAppend noErase noEnd, inStep⟩
  · have noAppend : ¬ (c ≥ ' '.toNat ∧ reader.i < BUFSIZE - 1) := fun both => visible both.1
    by_cases erases : c = backspace
    · subst erases
      rw [edit_backspace]
      rcases Nat.eq_zero_or_pos line.length with none | some
      · have noErase : ¬ (backspace = backspace ∧ reader.i > 0) := by omega
        rw [List.length_eq_zero_iff.mp none, List.dropLast_nil, ← List.length_eq_zero_iff.mp none]
        exact ⟨reader, get_ignored isChar noAppend noErase noEnd, inStep⟩
      · exact inStep.erase some
    · rw [edit_other visible erases]
      exact ⟨reader, get_ignored isChar noAppend (fun both => erases both.1) noEnd, inStep⟩

theorem InStep.finish (inStep : InStep start line reader) (isEnd : LineEnd c) :
    ∃ buf, reader.get c = .ok (.line { reader with buf, shown := reader.shown ++ [c] }) ∧
      line.map UInt8.ofInt ++ [0] <+: buf.bytes := by
  have notVisible : ¬ (c ≥ ' '.toNat ∧ reader.i < BUFSIZE - 1) := fun both => by
    rcases isEnd with is | is <;> exact absurd both.1 (by rw [is]; decide)
  have notErase : ¬ (c = backspace ∧ reader.i > 0) := fun both => by
    rcases isEnd with is | is <;> exact absurd both.1 (by rw [is]; decide)
  have isChar : ¬ c < 0 := by
    rcases isEnd with is | is <;> rw [is] <;> decide
  obtain ⟨buf, stored, held⟩ := inStep.store 0
  refine ⟨buf, ?_, held⟩
  rw [Reader.get, if_neg isChar, if_neg notVisible, if_neg notErase]
  refine (if_pos isEnd).trans ?_
  rw [stored, ok_bind, cputchar]

theorem readlineLoop_edits (inStep : InStep start line reader)
    (all : ∀ c ∈ edits, 0 ≤ c ∧ ¬ LineEnd c) :
    ∃ next, InStep start (edits.foldl edit line) next ∧
      ∀ rest, readlineLoop (edits ++ rest) reader = readlineLoop rest next := by
  induction edits generalizing line reader with
  | nil => exact ⟨reader, inStep, fun _ => rfl⟩
  | cons c edits ih =>
      obtain ⟨isChar, noEnd⟩ := all c (by simp)
      obtain ⟨middle, got, first⟩ := inStep.get isChar noEnd
      obtain ⟨next, others, loop⟩ := ih first fun c member => all c (List.mem_cons_of_mem _ member)
      refine ⟨next, others, fun rest => ?_⟩
      rw [List.cons_append, readlineLoop, got, ok_bind]
      exact loop rest

/-- Whatever is delivered, the index stays inside of the buffer. -/
theorem readlineLoop_bounded (inStep : InStep start line reader) (input : List Int) :
    ∃ answer, readlineLoop input reader = .ok answer ∧
      0 ≤ answer.reader.i ∧ answer.reader.i ≤ BUFSIZE - 1 := by
  induction input generalizing line reader with
  | nil => exact ⟨.reading reader, rfl, inStep.bounds⟩
  | cons c input ih =>
      by_cases negative : c < 0
      · refine ⟨.null reader, ?_, inStep.bounds⟩
        rw [readlineLoop, Reader.get, if_pos negative, ok_bind]
      · by_cases isEnd : LineEnd c
        · obtain ⟨buf, got, _⟩ := inStep.finish isEnd
          refine ⟨.line { reader with buf, shown := reader.shown ++ [c] }, ?_, inStep.bounds⟩
          rw [readlineLoop, got, ok_bind]
        · obtain ⟨next, got, first⟩ := inStep.get (Int.not_lt.mp negative) isEnd
          obtain ⟨answer, loop, bounds⟩ := ih first
          refine ⟨answer, ?_, bounds⟩
          rw [readlineLoop, got, ok_bind]
          exact loop

/-- `NULL`, or a string in memory. -/
inductive Prompt (memory : KernelMemory) : (prompt : Arg) → (text : List UInt8) → Prop where
  | null (extent : Nat) : Prompt memory (.word 0 extent) []
  | string (value : UInt64) (extent : Nat) (text : List UInt8) (notNull : value ≠ 0)
      (string : StringAt ((Object.memory value.toNat extent).view memory.image) 0 text) :
      Prompt memory (.word value extent) text

theorem readline_prompts {memory : KernelMemory} {prompt : Arg} {text : List UInt8}
    (isPrompt : Prompt memory prompt text) (buf : LineBuffer) (shown : List Int) {answer : Answer}
    (loop : readlineLoop input { buf, i := 0, shown := shown ++ chars text } = .ok answer) :
    Returns (readline memory prompt buf shown input) answer := by
  cases isPrompt with
  | null extent =>
      rw [chars, List.map_nil, List.append_nil] at loop
      exact .of_constant fun fuel => loop
  | string value extent text notNull string =>
      have isPointer : (Arg.word value extent).pointer ≠ none := by
        rw [Arg.pointer, if_neg notNull]
        exact Option.some_ne_none _
      have before : (Output.mk { memory, cnt := 0 } shown : Output Console).state.memory = memory := rfl
      obtain ⟨next, returns, printed⟩ := text_returns (cputch_keeps memory) before notNull string
      have prints : Returns (cprintf memory (.constant (bytesOf "%s")) (oneArg (.word value extent)) shown)
          (next.state.cnt, next.emitted) := returns.bind (.of_constant fun fuel => rfl)
      have runs : readline memory (.word value extent) buf shown input = fun fuel =>
          (cprintf memory (.constant (bytesOf "%s")) (oneArg (.word value extent)) shown fuel >>=
            fun found => .ok found.2) >>= fun shown => readlineLoop input { buf, i := 0, shown } := by
        funext fuel
        rw [readline, if_pos isPointer]
      rw [runs]
      refine (prints.bind (.of_constant fun fuel => rfl)).bind (.of_constant fun fuel => ?_)
      rw [printed.emitted]
      exact loop

/-- For every input the index stays inside of the buffer; and once the end of a line was read, the buffer
holds the line that was edited, with its terminator, and the echo spells it. -/
theorem readline_edits (memory : KernelMemory) (buf : LineBuffer) (shown : List Int) {prompt : Arg}
    {text : List UInt8} (isPrompt : Prompt memory prompt text) :
    (∀ input, ∃ answer, Returns (readline memory prompt buf shown input) answer ∧
      0 ≤ answer.reader.i ∧ answer.reader.i ≤ BUFSIZE - 1) ∧
    ∀ edits last rest, (∀ c ∈ edits, 0 ≤ c ∧ ¬ LineEnd c) → LineEnd last →
      ∃ reader echo, Returns (readline memory prompt buf shown (edits ++ last :: rest)) (.line reader) ∧
        (edited edits).map UInt8.ofInt ++ [0] <+: reader.buf.bytes ∧
        reader.shown = shown ++ chars text ++ echo ++ [last] ∧ spell echo = edited edits := by
  have empty := InStep.empty buf (shown ++ chars text)
  refine ⟨fun input => ?_, fun edits last rest all isEnd => ?_⟩
  · obtain ⟨answer, loop, bounds⟩ := readlineLoop_bounded empty input
    exact ⟨answer, readline_prompts isPrompt buf shown loop, bounds⟩
  · obtain ⟨middle, inStep, loop⟩ := readlineLoop_edits empty all
    obtain ⟨buf', got, held⟩ := inStep.finish isEnd
    obtain ⟨echo, echoed, spells⟩ := inStep.echo
    refine ⟨{ middle with buf := buf', shown := middle.shown ++ [last] }, echo,
      readline_prompts isPrompt buf shown ?_, held, ?_, spells⟩
    · rw [loop, readlineLoop, got, ok_bind]
    · rw [echoed]

/-- Two characters are typed and taken back, with a backspace too many. -/
theorem readline_edits_c : ∃ reader, Returns (readline (stringMemory [] (by decide)) (.word 0 0)
    ⟨List.replicate BUFSIZE 0, List.length_replicate⟩ [] [97, 98, 8, 8, 8, 99, 10]) (.line reader) ∧
    [99, 0] <+: reader.buf.bytes := by
  have edits := (readline_edits (stringMemory [] (by decide))
    ⟨List.replicate BUFSIZE 0, List.length_replicate⟩ [] (.null 0)).2 [97, 98, 8, 8, 8, 99] 10 []
  obtain ⟨reader, echo, returns, held, _⟩ := edits (by decide) (.inl rfl)
  exact ⟨reader, returns, held⟩

end Ucore.Libs.Readline
