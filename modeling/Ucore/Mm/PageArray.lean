import Ucore.Mm.PageInit

namespace Ucore.Mm

open Ucore.Data

/-- The descriptors of the frames from `nbase` to `npage`, one after the other in memory. -/
structure PageArray where
  pages : Nat
  npage : Nat
  managed : nbase ≤ npage
  fits : pages + sizeofPage * (npage - nbase) ≤ 2 ^ 64

namespace PageArray

/-! `page2ppn` and `page2pa` of `kern/mm/pmm.h`, on numeric addresses. -/

/-- The difference of two pointers is signed. -/
def page2ppn (array : PageArray) (page : Nat) : Nat :=
  uint64OfInt ((int64 ((page : Int) - array.pages)).tdiv sizeofPage + nbase)

def page2pa (array : PageArray) (page : Nat) : Nat := uint64 (array.page2ppn page <<< PGSHIFT)

variable (array : PageArray)

def count : Nat := array.npage - nbase

/-- `&pages[index]`. -/
def page (index : Fin array.count) : Nat := pageAt array.pages index

variable {array} {index ppn pa : Nat}

theorem page_eq (inside : index < array.count) :
    pageAt array.pages index = array.pages + sizeofPage * index := by
  have fits := array.fits
  simp only [count, sizeofPage] at inside fits ⊢
  rw [pageAt, sizeofPage, uint64_of_lt (by omega)]

theorem page2ppn_page (inside : index < array.count) (near : index < 2 ^ 57) :
    array.page2ppn (pageAt array.pages index) = Mm.page2ppn index := by
  have difference : ((pageAt array.pages index : Nat) : Int) - array.pages = sizeofPage * index := by
    rw [page_eq inside]
    omega
  have signed : int64 (sizeofPage * index : Int) = sizeofPage * index :=
    Int.bmod_eq_of_le (by simp only [sizeofPage]; omega) (by simp only [sizeofPage]; omega)
  rw [page2ppn, difference, signed, Int.mul_tdiv_cancel_left _ (by decide), ← Nat.cast_add,
    uint64OfInt_natCast, Mm.page2ppn]
  exact uint64_of_lt (by simp only [nbase, DRAM_BASE, PGSIZE]; omega)

theorem PPN_eq (pa : Nat) : PPN pa = pa / PGSIZE := Nat.shiftRight_eq_div_pow pa PGSHIFT

theorem PPN_lt (fits : pa < 2 ^ 64) : PPN pa < 2 ^ 52 := by
  rw [PPN_eq, PGSIZE]
  omega

theorem page2pa_page (inside : index < array.count) (near : index < 2 ^ 57) :
    array.page2pa (pageAt array.pages index) = Mm.page2pa index := by
  rw [page2pa, page2ppn_page inside near, Mm.page2pa]

theorem page2pa_eq (few : index + nbase < 2 ^ 52) : Mm.page2pa index = PGSIZE * (index + nbase) := by
  rw [Mm.page2pa, Mm.page2ppn, Nat.shiftLeft_eq, uint64_of_lt]
  · exact Nat.mul_comm _ _
  · simp only [PGSHIFT]
    omega

theorem pa2page_managed (above : nbase ≤ PPN pa) (below : PPN pa < array.npage) (fits : pa < 2 ^ 64) :
    pa2page array.pages array.npage pa = .ok (pageAt array.pages (PPN pa - nbase)) := by
  have index : uint64Sub (PPN pa) nbase = PPN pa - nbase := by
    have width := PPN_lt fits
    exact uint64Sub_of_le (by omega) above
  rw [pa2page, if_neg (Nat.not_le.mpr below), index]

theorem page2pa_managed (above : nbase ≤ PPN pa) (below : PPN pa < array.npage) (fits : pa < 2 ^ 64) :
    array.page2pa (pageAt array.pages (PPN pa - nbase)) = ROUNDDOWN pa PGSIZE := by
  have width := PPN_lt fits
  have inside : PPN pa - nbase < array.count := Nat.sub_lt_sub_right above below
  have down := Nat.div_add_mod pa PGSIZE
  rw [page2pa_page inside (by omega), page2pa_eq (by omega), Nat.sub_add_cancel above, PPN_eq, ROUNDDOWN]
  omega

/-- Below `nbase` the index wraps around and nothing is noticed. -/
theorem pa2page_below (below : PPN pa < nbase) :
    pa2page array.pages array.npage pa = .ok (pageAt array.pages (uint64Sub (PPN pa) nbase)) :=
  if_neg (Nat.not_le.mpr (below.trans_le array.managed))

/-- `pa2page` panics exactly outside of the managed frames, and what it returns is in the array and
translates back. -/
structure Translates (array : PageArray) (pa : Nat) : Prop where
  panics : (∃ stop, pa2page array.pages array.npage pa = .error stop) ↔
    PPN pa < nbase ∨ array.npage ≤ PPN pa
  returns : ∀ page, pa2page array.pages array.npage pa = .ok page →
    (∃ index, page = array.page index) ∧ array.page2pa page = ROUNDDOWN pa PGSIZE

theorem translates_iff (array : PageArray) (fits : pa < 2 ^ 64) :
    array.Translates pa ↔ nbase ≤ PPN pa := by
  refine ⟨fun translates => ?_, fun above => ⟨⟨fun panics => ?_, fun outside => ?_⟩, fun page ok => ?_⟩⟩
  · by_contra low
    obtain ⟨stop, panics⟩ := translates.panics.mpr (.inl (Nat.not_le.mp low))
    rw [pa2page_below (Nat.not_le.mp low)] at panics
    cases panics
  · obtain ⟨stop, panics⟩ := panics
    by_contra inside
    rw [pa2page_managed above (by omega) fits] at panics
    cases panics
  · exact ⟨_, if_pos (outside.resolve_left (Nat.not_lt.mpr above))⟩
  · have below : PPN pa < array.npage := by
      by_contra outside
      rw [pa2page, if_pos (Nat.not_lt.mp outside)] at ok
      cases ok
    rw [pa2page_managed above below fits] at ok
    rw [← Except.ok.inj ok]
    exact ⟨⟨⟨PPN pa - nbase, Nat.sub_lt_sub_right above below⟩, rfl⟩, page2pa_managed above below fits⟩

/-- Since 5 is odd, descriptors of one address are a multiple of `2 ^ 61` indices apart. -/
theorem turn_dvd {start gap rest : Nat} (wrapped : gap + rest = 2 ^ 64)
    (same : uint64 (start + sizeofPage * gap) = start + sizeofPage * index) :
    2 ^ 61 ∣ index + rest := by
  have turns := Nat.div_add_mod (start + sizeofPage * gap) (2 ^ 64)
  rw [uint64] at same
  rw [same, sizeofPage] at turns
  generalize (start + 40 * gap) / 2 ^ 64 = rounds at turns
  have eighth : 2 ^ 64 * rounds = 8 * (2 ^ 61 * rounds) := Nat.mul_assoc 8 (2 ^ 61) rounds
  rw [eighth] at turns
  have total : 2 ^ 61 * rounds + 5 * (index + rest) = 2 ^ 61 * 40 := by
    generalize 2 ^ 61 * rounds = whole at turns
    clear eighth same
    omega
  have five : 2 ^ 61 ∣ 5 * (index + rest) :=
    (Nat.dvd_add_right (Nat.dvd_mul_right (2 ^ 61) rounds)).mp (total ▸ Nat.dvd_mul_right _ _)
  have coprime : Nat.Coprime (2 ^ 61) 5 := Nat.Coprime.pow_left 61 (by decide)
  exact coprime.dvd_of_dvd_mul_left five

theorem page_ne (inside : index < array.count) (large : 2 ^ 52 ≤ index + nbase) (small : ppn < 2 ^ 52) :
    pageAt array.pages (uint64Sub ppn nbase) ≠ pageAt array.pages index := by
  have fits := array.fits
  have base : nbase < 2 ^ 20 := by decide
  intro same
  rw [page_eq inside] at same
  simp only [count, sizeofPage] at inside fits
  rcases Nat.lt_or_ge ppn nbase with below | above
  · have divides := turn_dvd (uint64Sub_of_lt below (by decide)) same
    have least := Nat.le_of_dvd (by omega) divides
    omega
  · rw [uint64Sub_of_le (by omega) above, pageAt, sizeofPage, uint64_of_lt (by omega)] at same
    omega

/-- Frames whose address takes more than 64 bits are not found again. -/
theorem roundTrip_iff (array : PageArray) (inside : index < array.count) :
    pa2page array.pages array.npage (array.page2pa (pageAt array.pages index)) =
      .ok (pageAt array.pages index) ↔ index + nbase < 2 ^ 52 := by
  refine ⟨fun returns => ?_, fun few => ?_⟩
  · by_contra large
    have width : PPN (array.page2pa (pageAt array.pages index)) < 2 ^ 52 :=
      PPN_lt (Nat.mod_lt _ (by decide))
    rw [pa2page] at returns
    generalize PPN (array.page2pa (pageAt array.pages index)) = ppn at returns width
    split at returns
    · cases returns
    · have same := Except.ok.inj returns
      exact page_ne inside (Nat.not_lt.mp large) width same
  · have isFrame := page2pa_eq few
    rw [page2pa_page inside (by omega), isFrame]
    have number : PPN (PGSIZE * (index + nbase)) = index + nbase := by
      rw [PPN_eq]
      exact Nat.mul_div_cancel_left _ (by decide)
    have managed : index + nbase < array.npage := by
      simp only [count] at inside
      omega
    rw [pa2page_managed (by rw [number]; omega) (by rw [number]; exact managed)
      (by simp only [PGSIZE]; omega), number, Nat.add_sub_cancel]

/-- For every array and every address, and for every descriptor of the array. -/
theorem translation_iff (array : PageArray) :
    (∀ pa : UInt64, array.Translates pa.toNat ↔ nbase ≤ PPN pa.toNat) ∧
    ∀ index : Fin array.count,
      pa2page array.pages array.npage (array.page2pa (array.page index)) = .ok (array.page index) ↔
        index + nbase < 2 ^ 52 :=
  ⟨fun pa => array.translates_iff pa.toNat_lt, fun index => array.roundTrip_iff index.isLt⟩

/-- The address 0 belongs to no frame, and gets a descriptor in front of the array. -/
theorem translation_below :
    PPN 0 < nbase ∧ pa2page 0xFFFFFFFFC0300000 0x87E00 0 = .ok 0xFFFFFFFFBEF00000 :=
  ⟨by decide, rfl⟩

end PageArray

end Ucore.Mm
