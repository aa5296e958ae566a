import Ucore.Libs.StringOps

namespace Ucore.Libs.StringOps

open Ucore.Data Ucore.Mm

/-! What `strcpy`, `strncpy` and `memcpy` leave in memory, also where the ranges overlap. -/

variable {image : Image} {dst src n p address count : Nat} {bytes : List UInt8} {byte : UInt8}

theorem strcpyLoop_step (read : image src = some byte) (writable : image p ≠ none) (fuel : Nat) :
    strcpyLoop (fuel + 1) p src image =
      if byte ≠ 0 then
        strcpyLoop fuel (uint64 (p + 1)) (uint64 (src + 1)) (Function.update image p (some byte))
      else
        .ok (Function.update image p (some byte)) := by
  rw [strcpyLoop, readChar_ok.mpr read, ok_bind, writeChar_ok.mpr ⟨writable, rfl⟩, ok_bind]

theorem strncpyLoop_step (read : image src = some byte) (writable : image p ≠ none) (len : Nat) :
    strncpyLoop (len + 1) p src image =
      strncpyLoop len (uint64 (p + 1)) (if byte ≠ 0 then uint64 (src + 1) else src)
        (Function.update image p (some byte)) := by
  rw [strncpyLoop, readChar_ok.mpr read, ok_bind, writeChar_ok.mpr ⟨writable, rfl⟩, ok_bind]

theorem string_update {place : Nat} (string : StringAt image address bytes) (stored : UInt8)
    (outside : place < address ∨ address + bytes.length < place) :
    StringAt (Function.update image place (some stored)) address bytes := by
  refine ⟨string.holds.update stored ?_, string.noZero⟩
  rw [List.length_append, List.length_singleton]
  omega

theorem strcpyLoop_copies (string : StringAt image src bytes)
    (writable : Mapped image p (bytes.length + 1)) (fitsSrc : src + bytes.length < 2 ^ 64)
    (fitsDst : p + bytes.length < 2 ^ 64) (ahead : ¬ (src < p ∧ p ≤ src + bytes.length)) :
    Returns (fun fuel => strcpyLoop fuel p src image) (image.moved p src (bytes.length + 1)) := by
  induction bytes generalizing p src image with
  | nil =>
      have read : image src = some 0 := string.holds.1
      have canWrite : image p ≠ none := writable 0 (Nat.succ_pos _)
      rw [List.length_nil] at ahead ⊢
      have first := @Image.moved_first image p src 0 (by omega)
      rw [Image.moved_zero] at first
      refine Returns.round (Returns.of_constant fun fuel => ?_)
      rw [strcpyLoop_step read canWrite, if_neg (by simp), ← first, read]
  | cons byte bytes ih =>
      have read : image src = some byte := string.holds.1
      have isByte : byte ≠ 0 := fun zero => string.noZero (by simp [zero])
      rw [List.length_cons] at writable fitsSrc fitsDst ahead ⊢
      have first := @Image.moved_first image p src (bytes.length + 1) (by omega)
      have canWrite : image p ≠ none := writable 0 (Nat.succ_pos _)
      have onward := @ih (Function.update image p (some byte)) (src + 1) (p + 1)
        (string_update string.tail byte (by omega)) (writable.tail.update p (Option.some_ne_none _))
        (by omega) (by omega) (by omega)
      rw [← read, first] at onward
      apply Returns.round
      simp only [strcpyLoop_step read canWrite, if_pos isByte,
        uint64_of_lt (by omega : p + 1 < 2 ^ 64), uint64_of_lt (by omega : src + 1 < 2 ^ 64), ← read]
      exact onward

/-- None of the bytes from `src` on, so many of them, is a terminator. -/
def Unterminated (image : Image) (src count : Nat) : Prop :=
  ∀ offset < count, image (uint64 (src + offset)) ≠ some 0

/-- The byte just written enters the window, and the one just read leaves it. -/
theorem Unterminated.step (window : Unterminated image src count) (isByte : byte ≠ 0) :
    Unterminated (Function.update image (uint64 (src + count)) (some byte)) (src + 1) count := by
  intro offset inside
  rw [Function.update_apply]
  split
  · simpa using isByte
  · rename_i kept
    have shift : src + 1 + offset = src + (offset + 1) := by omega
    rw [shift] at kept ⊢
    rcases Nat.lt_or_ge (offset + 1) count with within | last
    · exact window (offset + 1) within
    · obtain rfl : offset + 1 = count := by omega
      exact absurd rfl kept

theorem Unterminated.isByte (window : Unterminated image src count) (positive : 0 < count)
    (read : image (uint64 src) = some byte) : byte ≠ 0 := by
  intro zero
  exact window 0 positive (zero ▸ read)

theorem unterminated_string (string : StringAt image src bytes) (fits : src + bytes.length < 2 ^ 64)
    (shorter : count ≤ bytes.length) : Unterminated image src count := by
  intro offset inside zero
  rw [uint64_of_lt (by omega), (string.holds.getElem? (by simp; omega)),
    List.getElem?_append_left (by omega)] at zero
  exact string.noZero (List.mem_of_getElem? zero)

/-- Once no byte between `src` and `p` is a terminator, none is ever read. -/
theorem strcpyLoop_never (positive : 0 < count) (window : Unterminated image src count) (fuel : Nat)
    (after : Image) :
    strcpyLoop fuel (uint64 (src + count)) (uint64 src) image ≠ .ok after := by
  induction fuel generalizing src image with
  | zero => simp [strcpyLoop]
  | succ fuel ih =>
      intro done
      rw [strcpyLoop] at done
      obtain ⟨byte, read, done⟩ := bind_eq_ok.mp done
      obtain ⟨written, stored, done⟩ := bind_eq_ok.mp done
      obtain ⟨_, rfl⟩ := writeChar_ok.mp stored
      have isByte := window.isByte positive (readChar_ok.mp read)
      have nextSrc : uint64 (uint64 src + 1) = uint64 (src + 1) := uint64_next src 0
      rw [if_pos isByte, uint64_next src count, nextSrc] at done
      exact ih (window.step isByte) done

/-- `strcpy` copies the string, except onto the string itself: there it never returns. -/
theorem strcpy_returns_iff (string : StringAt image src bytes)
    (writable : Mapped image dst (bytes.length + 1)) (fitsSrc : src + bytes.length < 2 ^ 64)
    (fitsDst : dst + bytes.length < 2 ^ 64) :
    ((∃ result, Returns (strcpy image dst src) result) ↔ ¬ (src < dst ∧ dst ≤ src + bytes.length)) ∧
      ∀ result after, Returns (strcpy image dst src) (result, after) → result = dst ∧
        StringAt after dst bytes ∧
        ∀ address, address < dst ∨ dst + bytes.length < address → after address = image address := by
  by_cases onto : src < dst ∧ dst ≤ src + bytes.length
  · have window := unterminated_string string fitsSrc (by omega : dst - src ≤ bytes.length)
    have never (result : Nat × Image) : ¬ Returns (strcpy image dst src) result := by
      intro returns
      obtain ⟨fuel, done⟩ := returns.some_fuel
      obtain ⟨after, copied, _⟩ := bind_eq_ok.mp done
      have positive : 0 < dst - src := by omega
      refine strcpyLoop_never positive window fuel after ?_
      rwa [Nat.add_sub_cancel' (by omega), uint64_of_lt (by omega), uint64_of_lt (by omega)]
    refine ⟨iff_of_false (fun returns => ?_) (not_not.mpr onto), fun result after returns => ?_⟩
    · obtain ⟨result, returns⟩ := returns
      exact never result returns
    · exact absurd returns (never _)
  · have copied : Returns (strcpy image dst src) (dst, image.moved dst src (bytes.length + 1)) :=
      (strcpyLoop_copies string writable fitsSrc fitsDst onto).bind (.of_constant fun _ => rfl)
    refine ⟨iff_of_true ⟨_, copied⟩ onto, fun result after returns => ?_⟩
    cases copied.unique returns
    refine ⟨rfl, ⟨?_, string.noZero⟩, fun address outside => Image.moved_outside (by omega)⟩
    simpa using string.holds.moved dst

/-- Behind the strings there is room for a copy.  One byte further on, the copy never ends. -/
theorem strcpy_returns_text : (∃ result, Returns (strcpy textImage 15 8) result) ∧
    ¬ ∃ result, Returns (strcpy textImage 9 8) result := by
  have string := textImage_strings.1
  have room {place : Nat} (low : 8 ≤ place) (high : place ≤ 15) : Mapped textImage place 3 :=
    textImage_mapped low (by omega)
  constructor
  · exact (strcpy_returns_iff string (room (by decide) (by decide)) (by decide) (by decide)).1.mpr
      (by decide)
  · exact fun returns => (strcpy_returns_iff string (room (by decide) (by decide)) (by decide)
      (by decide)).1.mp returns (by decide)

/-! Copying so many bytes. -/

theorem memmoveUp_repeats (fitsDst : dst + n ≤ 2 ^ 64) (fitsSrc : src + n ≤ 2 ^ 64)
    (readable : Mapped image src n) (writable : Mapped image dst n) :
    memmoveUp n (uint64 dst) (uint64 src) image = .ok (image.repeated dst src n) := by
  induction n generalizing dst src image with
  | zero => rw [memmoveUp, Image.repeated_zero]
  | succ n ih =>
      have isByte : image src ≠ none := readable 0 (Nat.succ_pos n)
      have canWrite : image dst ≠ none := writable 0 (Nat.succ_pos n)
      have nextDst : uint64 (uint64 dst + 1) = uint64 (dst + 1) := uint64_next dst 0
      have nextSrc : uint64 (uint64 src + 1) = uint64 (src + 1) := uint64_next src 0
      have onward := @ih (Function.update image dst (image src)) (dst + 1) (src + 1) (by omega) (by omega)
        (readable.tail.update dst isByte) (writable.tail.update dst isByte)
      rw [← nextDst, ← nextSrc, Image.repeated_first] at onward
      rw [uint64_of_lt (by omega : dst < 2 ^ 64), uint64_of_lt (by omega : src < 2 ^ 64)] at onward ⊢
      rw [memmoveUp, copyChar_bind isByte canWrite]
      exact onward

theorem memcpy_ok (image : Image) (dst src n : UInt64) (fitsDst : dst.toNat + n.toNat ≤ 2 ^ 64)
    (fitsSrc : src.toNat + n.toNat ≤ 2 ^ 64) (readable : Mapped image src.toNat n.toNat)
    (writable : Mapped image dst.toNat n.toNat) :
    memcpy image dst.toNat src.toNat n.toNat =
      .ok (dst.toNat, image.repeated dst.toNat src.toNat n.toNat) := by
  have copied := memmoveUp_repeats fitsDst fitsSrc readable writable
  rw [uint64_of_lt dst.toNat_lt, uint64_of_lt src.toNat_lt] at copied
  rw [memcpy, copied, ok_bind]

/-- `memcpy` does what `memmove` does if and only if the bytes that it overwrites before it reads
them repeat those it writes there. -/
theorem memcpy_eq_memmove_iff (image : Image) (dst src n : UInt64)
    (fitsDst : dst.toNat + n.toNat ≤ 2 ^ 64) (fitsSrc : src.toNat + n.toNat ≤ 2 ^ 64)
    (readable : Mapped image src.toNat n.toNat) (writable : Mapped image dst.toNat n.toNat) :
    memcpy image dst.toNat src.toNat n.toNat = memmove image dst.toNat src.toNat n.toNat ↔
      (src < dst → ∀ offset, dst.toNat + offset < src.toNat + n.toNat →
        image (src.toNat + offset) = image (dst.toNat + offset)) := by
  rw [memcpy_ok image dst src n fitsDst fitsSrc readable writable,
    memmove_ok fitsDst fitsSrc readable writable dst.toNat_lt src.toNat_lt, UInt64.lt_iff_toNat_lt,
    ← Image.repeated_eq_moved_iff]
  simp

/-- Onto the next byte, `memcpy` repeats the first one. -/
theorem memcpy_eq_memmove_text : memcpy textImage 11 8 3 = memmove textImage 11 8 3 ∧
    memcpy textImage 9 8 3 ≠ memmove textImage 9 8 3 := by
  have mapped {place : Nat} (low : 8 ≤ place) (high : place ≤ 15) : Mapped textImage place 3 :=
    textImage_mapped low (by omega)
  constructor
  · exact (memcpy_eq_memmove_iff textImage 11 8 3 (by decide) (by decide)
      (mapped (by decide) (by decide)) (mapped (by decide) (by decide))).mpr
        fun _ offset again => absurd again (by simp)
  · intro same
    have periodic := (memcpy_eq_memmove_iff textImage 9 8 3 (by decide) (by decide)
      (mapped (by decide) (by decide)) (mapped (by decide) (by decide))).mp same (by decide) 0 (by decide)
    exact absurd periodic (by decide)

theorem strncpyLoop_copies (string : StringAt image src bytes) (writable : Mapped image p n)
    (fitsSrc : src + bytes.length < 2 ^ 64) (fitsDst : p + n ≤ 2 ^ 64)
    (ahead : ¬ (src < p ∧ p ≤ src + bytes.length)) :
    ∃ after, strncpyLoop n (uint64 p) src image = .ok after ∧
      after.Holds p (bytes.take n ++ List.replicate (n - bytes.length) 0) ∧
      ∀ address, address < p ∨ p + n ≤ address → after address = image address := by
  induction n generalizing bytes p src image with
  | zero => exact ⟨image, rfl, by simp [Image.Holds], fun _ _ => rfl⟩
  | succ n ih =>
      have canWrite : image (uint64 p) ≠ none := by
        rw [uint64_of_lt (by omega)]
        exact writable 0 (Nat.succ_pos n)
      have next : uint64 (uint64 p + 1) = uint64 (p + 1) := uint64_next p 0
      have here : uint64 p = p := uint64_of_lt (by omega)
      cases bytes with
      | nil =>
          have read : image src = some 0 := string.holds.1
          have still : StringAt (Function.update image p (some 0)) src [] := by
            refine ⟨⟨?_, trivial⟩, List.not_mem_nil⟩
            rw [Function.update_apply, read, ite_self]
          obtain ⟨after, copied, holds, kept⟩ := @ih (Function.update image p (some 0)) src (p + 1) []
            still (writable.tail.update p (Option.some_ne_none _)) fitsSrc (by omega) (by simp)
          refine ⟨after, ?_, ⟨?_, by simpa using holds⟩, fun address outside => ?_⟩
          · rw [strncpyLoop_step read canWrite, if_neg (by simp), next, here, copied]
          · rw [kept p (by omega), Function.update_self]
          · rw [kept address (by omega), Function.update_of_ne (by omega)]
      | cons byte bytes =>
          have read : image src = some byte := string.holds.1
          have isByte : byte ≠ 0 := fun zero => string.noZero (by simp [zero])
          rw [List.length_cons] at fitsSrc ahead
          obtain ⟨after, copied, holds, kept⟩ := @ih (Function.update image p (some byte)) (src + 1) (p + 1)
            bytes (string_update string.tail byte (by omega))
            (writable.tail.update p (Option.some_ne_none _)) (by omega) (by omega) (by omega)
          refine ⟨after, ?_, ?_, fun address outside => ?_⟩
          · rw [strncpyLoop_step read canWrite, if_pos isByte, next, here,
              uint64_of_lt (by omega : src + 1 < 2 ^ 64), copied]
          · rw [List.take_succ_cons, List.length_cons, Nat.add_sub_add_right]
            exact ⟨by rw [kept p (by omega), Function.update_self], holds⟩
          · rw [kept address (by omega), Function.update_of_ne (by omega)]

/-- Without a terminator `strncpy` copies like `memcpy`. -/
theorem strncpyLoop_unterminated (positive : 0 < count) (window : Unterminated image src count)
    (n : Nat) : strncpyLoop n (uint64 (src + count)) (uint64 src) image =
      memmoveUp n (uint64 (src + count)) (uint64 src) image := by
  induction n generalizing src image with
  | zero => rfl
  | succ n ih =>
      rw [strncpyLoop, memmoveUp]
      cases read : readChar image (uint64 src) with
      | error stop => rfl
      | ok byte =>
          have isByte := window.isByte positive (readChar_ok.mp read)
          rw [ok_bind, ok_bind]
          cases stored : writeChar image (uint64 (src + count)) byte with
          | error stop => rfl
          | ok written =>
              obtain ⟨_, rfl⟩ := writeChar_ok.mp stored
              have nextSrc : uint64 (uint64 src + 1) = uint64 (src + 1) := uint64_next src 0
              rw [ok_bind, ok_bind, if_pos isByte, uint64_next src count, nextSrc]
              exact ih (window.step isByte)

/-- `strncpy` writes so many bytes in any case.  They are the string and zeros, and among them is a
terminator, unless the string is too long or is copied onto itself.  Then they are the bytes between
`src` and `dst`, again and again. -/
theorem strncpy_terminates_iff (string : StringAt image src bytes) (writable : Mapped image dst n)
    (fitsSrc : src + bytes.length < 2 ^ 64) (fitsDst : dst + n ≤ 2 ^ 64) (isDst : dst < 2 ^ 64) :
    ∃ after, strncpy image dst src n = .ok (dst, after) ∧
      (∀ address, address < dst ∨ dst + n ≤ address → after address = image address) ∧
      (¬ (src < dst ∧ dst ≤ src + bytes.length) →
        after.Holds dst (bytes.take n ++ List.replicate (n - bytes.length) 0)) ∧
      (src < dst ∧ dst ≤ src + bytes.length →
        ∀ offset < n, after (dst + offset) = image (src + offset % (dst - src))) ∧
      ((∃ offset < n, after (dst + offset) = some 0) ↔
        bytes.length < n ∧ ¬ (src < dst ∧ dst ≤ src + bytes.length)) := by
  by_cases onto : src < dst ∧ dst ≤ src + bytes.length
  · have window := unterminated_string string fitsSrc (by omega : dst - src ≤ bytes.length)
    have readable : Mapped image src n := by
      intro offset inside
      rcases Nat.lt_or_ge offset (dst - src) with before | again
      · exact string.holds.readable (by omega) (by simp; omega)
      · obtain ⟨rest, rfl⟩ := Nat.exists_eq_add_of_le again
        have place : src + (dst - src + rest) = dst + rest := by omega
        rw [place]
        exact writable rest (by omega)
    have copied := memmoveUp_repeats fitsDst (by omega) readable writable
    have positive : 0 < dst - src := by omega
    have same := strncpyLoop_unterminated positive window n
    rw [Nat.add_sub_cancel' (by omega), copied, uint64_of_lt isDst, uint64_of_lt (by omega)] at same
    refine ⟨image.repeated dst src n, by rw [strncpy, same, ok_bind],
      fun address outside => Image.repeated_outside outside, fun apart => absurd onto apart,
      fun _ offset inside => Image.repeated_inside inside,
      iff_of_false (fun found => ?_) fun both => both.2 onto⟩
    obtain ⟨offset, inside, zero⟩ := found
    have below := Nat.mod_lt offset positive
    rw [Image.repeated_inside inside, ← uint64_of_lt (by omega : src + offset % (dst - src) < 2 ^ 64)]
      at zero
    exact window _ below zero
  · obtain ⟨after, copied, holds, kept⟩ := strncpyLoop_copies string writable fitsSrc fitsDst onto
    rw [uint64_of_lt isDst] at copied
    refine ⟨after, by rw [strncpy, copied, ok_bind], kept, fun _ => holds,
      fun again => absurd again onto, ?_⟩
    rw [and_iff_left onto]
    constructor
    · intro found
      obtain ⟨offset, inside, zero⟩ := found
      by_contra long
      have full : bytes.take n ++ List.replicate (n - bytes.length) 0 = bytes.take n := by
        rw [Nat.sub_eq_zero_of_le (by omega), List.replicate_zero, List.append_nil]
      rw [full] at holds
      rw [holds.getElem? (by rw [List.length_take]; omega)] at zero
      exact string.noZero (List.mem_of_mem_take (List.mem_of_getElem? zero))
    · intro short
      refine ⟨bytes.length, short, ?_⟩
      rw [holds.getElem? (by simp; omega), List.take_of_length_le short.le,
        List.getElem?_append_right le_rfl, Nat.sub_self, List.getElem?_replicate, if_pos (by omega)]

/-- Four bytes of "abc", onto its own terminator and apart from it. -/
theorem strncpy_terminates_text :
    (∃ after, strncpy textImage 14 11 4 = .ok (14, after) ∧ after 17 = some 97 ∧
      ¬ ∃ offset < 4, after (14 + offset) = some 0) ∧
    ∃ after, strncpy textImage 8 11 4 = .ok (8, after) ∧ ∃ offset < 4, after (8 + offset) = some 0 := by
  have string := textImage_strings.2
  constructor
  · obtain ⟨after, copied, _, _, repeated, terminated⟩ := strncpy_terminates_iff string
      (textImage_mapped (by decide) (by decide) : Mapped textImage 14 4) (by decide) (by decide) (by decide)
    have last : after 17 = some 97 := repeated (by decide) 3 (by decide)
    exact ⟨after, copied, last, fun found => absurd (terminated.mp found) (by decide)⟩
  · obtain ⟨after, copied, _, _, _, terminated⟩ := strncpy_terminates_iff string
      (textImage_mapped (by decide) (by decide) : Mapped textImage 8 4) (by decide) (by decide) (by decide)
    exact ⟨after, copied, terminated.mpr (by decide)⟩

end Ucore.Libs.StringOps
