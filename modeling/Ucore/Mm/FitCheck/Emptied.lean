import Ucore.Mm.Fit.Relocation
import Ucore.Mm.FitCheck

namespace Ucore.Mm.Fit

open Ucore.Data Ucore.Libs Extent

/-! The parts of the checks that work on a few pages while the list is set aside.

They damage the list, so their outcome is computed, on pages at the start of the array.
-/

variable {base size page p n fuel : Nat} {text : String} {background large small memory : FitMemory}
  {manager : FitManager} {condition other : Bool}

theorem assert_lockstep (same : condition = other) :
    Lockstep (fun _ _ => True) (assert condition text) (assert other text) := by
  cases same
  unfold assert
  split
  · exact .ok trivial
  · exact .error _

namespace Mirrored

/-- One rule for both answers of an allocation. -/
theorem allocPages_bind {related : α → β → Prop} {rest : Option Nat × FitMemory → Except Stop α}
    {restSmall : Option Nat × FitMemory → Except Stop β}
    (mirrored : Mirrored base size background large small)
    (granted : ∀ page large small, page + n ≤ size → Mirrored base size background large small →
      Lockstep related (rest (some (base + page), large)) (restSmall (some page, small)))
    (refused : ∀ large small, Mirrored base size background large small →
      Lockstep related (rest (none, large)) (restSmall (none, small))) :
    Lockstep related (manager.pmm.allocPages large n fuel >>= rest)
      (manager.pmm.allocPages small n fuel >>= restSmall) := by
  obtain ⟨listed, mirrors⟩ := mirrored
  refine mirrors.alloc.bind fun answer answerSmall both => ?_
  obtain ⟨found, large⟩ := answer
  obtain ⟨foundSmall, small⟩ := answerSmall
  obtain ⟨rfl, fits, memory⟩ := both
  cases foundSmall with
  | none => exact refused large small memory
  | some page => exact granted page large small (fits page rfl) memory

theorem allocSome (mirrored : Mirrored base size background large small) :
    Lockstep (fun a b => a.1 = base + b.1 ∧ b.1 + n ≤ size ∧ Mirrored base size background a.2 b.2)
      (allocSome manager.pmm n text large fuel) (allocSome manager.pmm n text small fuel) := by
  unfold Mm.allocSome
  refine mirrored.allocPages_bind (fun page large small fits memory => ?_) fun _ _ _ => ?_
  · exact .ok ⟨rfl, fits, memory⟩
  · exact .error _

theorem allocSome_bind {related : α → β → Prop} {rest : Nat × FitMemory → Except Stop α}
    {restSmall : Nat × FitMemory → Except Stop β}
    (mirrored : Mirrored base size background large small)
    (later : ∀ page large small, page + n ≤ size → Mirrored base size background large small →
      Lockstep related (rest (base + page, large)) (restSmall (page, small))) :
    Lockstep related (Mm.allocSome manager.pmm n text large fuel >>= rest)
      (Mm.allocSome manager.pmm n text small fuel >>= restSmall) := by
  refine mirrored.allocSome.bind fun first second granted => ?_
  obtain ⟨page, large⟩ := first
  obtain ⟨pageSmall, small⟩ := second
  obtain ⟨rfl, fits, memory⟩ := granted
  exact later pageSmall large small fits memory

theorem allocNone (mirrored : Mirrored base size background large small) :
    Lockstep (Mirrored base size background) (allocNone manager.pmm n text large fuel)
      (allocNone manager.pmm n text small fuel) := by
  unfold Mm.allocNone
  refine mirrored.allocPages_bind (fun _ _ _ _ _ => ?_) fun large small memory => ?_
  · exact .error _
  · exact .ok memory

theorem allocAt (mirrored : Mirrored base size background large small) :
    Lockstep (Mirrored base size background) (allocAt manager.pmm n (base + p) text large fuel)
      (allocAt manager.pmm n p text small fuel) := by
  unfold Mm.allocAt
  refine mirrored.allocPages_bind (fun page large small _ memory => ?_) fun large small memory => ?_
  · have same : some (base + page) = some (base + p) ↔ some page = some p := by simp
    exact (assert_lockstep (decide_eq_decide.mpr same)).bind fun _ _ _ => .ok memory
  · exact (assert_lockstep (by simp)).bind fun _ _ _ => .ok memory

theorem free (mirrored : Mirrored base size background large small) (fits : p + n ≤ size) :
    Lockstep (Mirrored base size background) (manager.pmm.freePages large (base + p) n fuel)
      (manager.pmm.freePages small p n fuel) := by
  obtain ⟨listed, mirrors⟩ := mirrored
  rw [FitManager.pmm_freePages]
  exact mirrors.free fits

theorem headsBlock (mirrored : Mirrored base size background large small) (inside : p < size) :
    headsBlock large (base + p) n = headsBlock small p n := by
  obtain ⟨listed, mirrors⟩ := mirrored
  have marks := mirrors.marks p inside
  unfold Mm.headsBlock
  rw [marks.flags]
  by_cases marked : (small.pages p).flags = 0
  · rw [marked]
    rfl
  · rw [marks.property (.inr marked)]

theorem listEmpty (mirrored : Mirrored base size background large small) :
    listEmpty large.links .freeList = listEmpty small.links .freeList := by
  obtain ⟨listed, mirrors⟩ := mirrored
  exact mirrors.listEmpty

theorem nrFree (mirrored : Mirrored base size background large small) :
    large.nrFree = small.nrFree := by
  obtain ⟨listed, mirrors⟩ := mirrored
  exact mirrors.nrFree

theorem basicCheckEmptied (mirrored : Mirrored base 3 background large small) :
    Lockstep (fun a b => a.1 = (base + b.1.1, base + b.1.2.1, base + b.1.2.2) ∧
        Mirrored base 3 background a.2 b.2)
      (basicCheckEmptied manager.pmm base (base + 1) (base + 2) large fuel)
      (basicCheckEmptied manager.pmm 0 1 2 small fuel) := by
  unfold Mm.basicCheckEmptied
  refine mirrored.allocNone.bind fun large small mirrored => ?_
  refine (mirrored.free (p := 0) (by decide)).bind fun large small mirrored => ?_
  refine (mirrored.free (p := 1) (by decide)).bind fun large small mirrored => ?_
  refine (mirrored.free (p := 2) (by decide)).bind fun large small mirrored => ?_
  rw [mirrored.nrFree]
  refine (assert_lockstep rfl).bind fun _ _ _ => ?_
  refine mirrored.allocSome_bind fun p0 large small fits mirrored => ?_
  refine mirrored.allocSome_bind fun p1 large small _ mirrored => ?_
  refine mirrored.allocSome_bind fun p2 large small _ mirrored => ?_
  refine mirrored.allocNone.bind fun large small mirrored => ?_
  refine (mirrored.free fits).bind fun large small mirrored => ?_
  rw [mirrored.listEmpty]
  refine (assert_lockstep rfl).bind fun _ _ _ => ?_
  refine mirrored.allocAt.bind fun large small mirrored => ?_
  refine mirrored.allocNone.bind fun large small mirrored => ?_
  rw [mirrored.nrFree]
  refine (assert_lockstep rfl).bind fun _ _ _ => ?_
  exact .ok ⟨rfl, mirrored⟩

theorem defaultCheckEmptied (mirrored : Mirrored base 5 background large small) :
    Lockstep (fun a b => a.1 = base + b.1 ∧ Mirrored base 5 background a.2 b.2)
      (defaultCheckEmptied manager.pmm base large fuel)
      (defaultCheckEmptied manager.pmm 0 small fuel) := by
  have same (p : Nat) : base + 2 = base + p ↔ 0 + 2 = p := by omega
  unfold Mm.defaultCheckEmptied
  refine (mirrored.free (p := 2) (by decide)).bind fun large small mirrored => ?_
  refine mirrored.allocNone.bind fun large small mirrored => ?_
  refine (assert_lockstep (mirrored.headsBlock (p := 2) (by decide))).bind fun _ _ _ => ?_
  refine mirrored.allocSome_bind fun p1 large small fits mirrored => ?_
  have inside : p1 < 5 := by omega
  refine mirrored.allocNone.bind fun large small mirrored => ?_
  refine (assert_lockstep (decide_eq_decide.mpr (same p1))).bind fun _ _ _ => ?_
  refine (mirrored.free (p := 0) (by decide)).bind fun large small mirrored => ?_
  refine (mirrored.free fits).bind fun large small mirrored => ?_
  refine (assert_lockstep (mirrored.headsBlock (p := 0) (by decide))).bind fun _ _ _ => ?_
  refine (assert_lockstep (mirrored.headsBlock inside)).bind fun _ _ _ => ?_
  refine (mirrored.allocAt (p := 0)).bind fun large small mirrored => ?_
  refine (mirrored.free (p := 0) (by decide)).bind fun large small mirrored => ?_
  refine (mirrored.allocAt (p := 2)).bind fun large small mirrored => ?_
  refine (mirrored.free (p := 2) (by decide)).bind fun large small mirrored => ?_
  refine (mirrored.free (p := 1) (by decide)).bind fun large small mirrored => ?_
  refine mirrored.allocSome_bind fun p0 large small _ mirrored => ?_
  refine mirrored.allocNone.bind fun large small mirrored => ?_
  rw [mirrored.nrFree]
  refine (assert_lockstep rfl).bind fun _ _ _ => ?_
  exact .ok ⟨rfl, mirrored⟩

theorem bestFitCheckEmptied (mirrored : Mirrored base 5 background large small) :
    Lockstep (fun a b => a.1 = base + b.1 ∧ Mirrored base 5 background a.2 b.2)
      (bestFitCheckEmptied manager.pmm base large fuel)
      (bestFitCheckEmptied manager.pmm 0 small fuel) := by
  have same (p : Nat) : base + 4 = base + p ↔ 0 + 4 = p := by omega
  unfold Mm.bestFitCheckEmptied
  refine (mirrored.free (p := 1) (by decide)).bind fun large small mirrored => ?_
  refine (mirrored.free (p := 4) (by decide)).bind fun large small mirrored => ?_
  refine mirrored.allocNone.bind fun large small mirrored => ?_
  refine (assert_lockstep (mirrored.headsBlock (p := 1) (by decide))).bind fun _ _ _ => ?_
  refine mirrored.allocSome_bind fun p1 large small _ mirrored => ?_
  refine mirrored.allocSome_bind fun _ large small _ mirrored => ?_
  refine (assert_lockstep (decide_eq_decide.mpr (same p1))).bind fun _ _ _ => ?_
  refine (mirrored.free (p := 0) (by decide)).bind fun large small mirrored => ?_
  refine mirrored.allocSome_bind fun p0 large small _ mirrored => ?_
  refine mirrored.allocNone.bind fun large small mirrored => ?_
  rw [mirrored.nrFree]
  refine (assert_lockstep rfl).bind fun _ _ _ => ?_
  exact .ok ⟨rfl, mirrored⟩

end Mirrored

/-! More fuel changes no outcome. -/

theorem allocSome_steady : Steady (allocSome manager.pmm n text memory) := by
  unfold allocSome
  refine (manager.steady.allocPages memory n).bind fun answer => ?_
  obtain ⟨found, after⟩ := answer
  cases found with
  | none => exact .constant _
  | some page => exact .constant _

theorem allocNone_steady : Steady (allocNone manager.pmm n text memory) := by
  unfold allocNone
  refine (manager.steady.allocPages memory n).bind fun answer => ?_
  obtain ⟨found, after⟩ := answer
  cases found with
  | none => exact .constant _
  | some page => exact .constant _

theorem allocAt_steady : Steady (allocAt manager.pmm n page text memory) :=
  (manager.steady.allocPages memory n).bind fun _ => (Steady.constant _).bind fun _ => .constant _

theorem freePages_steady : Steady (manager.pmm.freePages memory p n) :=
  manager.steady.freePages memory p n

theorem basicCheckEmptied_steady (manager : FitManager) (p0 p1 p2 : Nat) (memory : FitMemory) :
    Steady (basicCheckEmptied manager.pmm p0 p1 p2 memory) := by
  unfold basicCheckEmptied
  refine allocNone_steady.bind fun _ => ?_
  refine freePages_steady.bind fun _ => freePages_steady.bind fun _ => freePages_steady.bind fun _ => ?_
  refine (Steady.constant _).bind fun _ => ?_
  refine allocSome_steady.bind fun _ => ?_
  refine allocSome_steady.bind fun _ => ?_
  refine allocSome_steady.bind fun _ => ?_
  refine allocNone_steady.bind fun _ => freePages_steady.bind fun _ => ?_
  refine (Steady.constant _).bind fun _ => ?_
  refine allocAt_steady.bind fun _ => allocNone_steady.bind fun _ => ?_
  exact (Steady.constant _).bind fun _ => .constant _

theorem defaultCheckEmptied_steady (manager : FitManager) (p0 : Nat) (memory : FitMemory) :
    Steady (defaultCheckEmptied manager.pmm p0 memory) := by
  unfold defaultCheckEmptied
  refine freePages_steady.bind fun _ => allocNone_steady.bind fun _ => ?_
  refine (Steady.constant _).bind fun _ => ?_
  refine allocSome_steady.bind fun _ => allocNone_steady.bind fun _ => ?_
  refine (Steady.constant _).bind fun _ => ?_
  refine freePages_steady.bind fun _ => freePages_steady.bind fun _ => ?_
  refine (Steady.constant _).bind fun _ => (Steady.constant _).bind fun _ => ?_
  refine allocAt_steady.bind fun _ => freePages_steady.bind fun _ => ?_
  refine allocAt_steady.bind fun _ => freePages_steady.bind fun _ => freePages_steady.bind fun _ => ?_
  refine allocSome_steady.bind fun _ => allocNone_steady.bind fun _ => ?_
  exact (Steady.constant _).bind fun _ => .constant _

theorem bestFitCheckEmptied_steady (manager : FitManager) (p0 : Nat) (memory : FitMemory) :
    Steady (bestFitCheckEmptied manager.pmm p0 memory) := by
  unfold bestFitCheckEmptied
  refine freePages_steady.bind fun _ => freePages_steady.bind fun _ => allocNone_steady.bind fun _ => ?_
  refine (Steady.constant _).bind fun _ => ?_
  refine allocSome_steady.bind fun _ => allocSome_steady.bind fun _ => ?_
  refine (Steady.constant _).bind fun _ => ?_
  refine freePages_steady.bind fun _ => allocSome_steady.bind fun _ => ?_
  exact allocNone_steady.bind fun _ => (Steady.constant _).bind fun _ => .constant _

/-! Outcomes. -/

/-- An empty list in front of pages without marks. -/
def blankMemory : FitMemory where
  links := ⟨fun _ => ⟨.freeList, .freeList⟩⟩
  pages := fun _ => { ref := 0, flags := 0, property := 0 }
  nrFree := 0

/-- Pages that were lent are not marked, and everything else is as it was before. -/
structure Lent (lent : Extent) (before after : FitMemory) : Prop where
  outside : ∀ page, page ∉ lent.points →
    after.links.entry (.page page) = before.links.entry (.page page) ∧
      after.pages page = before.pages page
  unmarked : ∀ page ∈ lent.points, (after.pages page).flags = 0

/-- No page is marked, as far as this count. -/
def allUnmarked (count : Nat) (memory : FitMemory) : Bool :=
  (List.range count).all fun index => (memory.pages index).flags == 0

theorem Mirrored.lent (mirrored : Mirrored base size background large small)
    (unmarked : allUnmarked size small = true) : Lent ⟨base, size⟩ background large := by
  obtain ⟨listed, mirrors⟩ := mirrored
  refine ⟨mirrors.outside, fun page inside => ?_⟩
  obtain ⟨lower, upper⟩ := mem_points.mp inside
  obtain ⟨index, rfl⟩ := Nat.exists_eq_add_of_le lower
  have bound : index < size := Nat.lt_of_add_lt_add_left upper
  rw [(mirrors.marks index bound).flags]
  exact beq_iff_eq.mp (List.all_eq_true.mp unmarked index (List.mem_range.mpr bound))

theorem basicCheckEmptied_returns (manager : FitManager)
    (mirrored : Mirrored base 3 background large blankMemory) :
    ∃ after, Returns (basicCheckEmptied manager.pmm base (base + 1) (base + 2) large)
      ((base, base + 1, base + 2), after) ∧ Lent ⟨base, 3⟩ background after := by
  have computed : (basicCheckEmptied manager.pmm 0 1 2 blankMemory 9).toOption.any
      (fun result => result.1 == (0, 1, 2) && allUnmarked 3 result.2) = true := by
    cases manager with
    | firstFit => decide +kernel
    | bestFit => decide +kernel
  obtain ⟨⟨pages, after⟩, ⟨pagesSmall, afterSmall⟩, returns, ⟨rfl, mirroredAfter⟩, checked⟩ :=
    (basicCheckEmptied_steady manager base (base + 1) (base + 2) large).follow_computed
      (fun fuel => mirrored.basicCheckEmptied) computed
  obtain ⟨same, unmarked⟩ := Bool.and_eq_true_iff.mp checked
  cases beq_iff_eq.mp same
  exact ⟨after, returns, mirroredAfter.lent unmarked⟩

/-- The frees at the end of `basic_check`. -/
def freeThree (manager : FitManager) (p p1 p2 : Nat) (memory : FitMemory) : Bounded FitMemory :=
  fun fuel => do
    let memory ← manager.pmm.freePages memory p 1 fuel
    let memory ← manager.pmm.freePages memory p1 1 fuel
    manager.pmm.freePages memory p2 1 fuel

/-- They also return where nothing else is free, and damage the list then. -/
theorem freeThree_returns (manager : FitManager)
    (mirrored : Mirrored base 3 background large blankMemory) :
    ∃ after, Returns (freeThree manager base (base + 1) (base + 2) large) after ∧
      after.nrFree = 3 := by
  have computed : (freeThree manager 0 1 2 blankMemory 9).toOption.any
      (fun memory => memory.nrFree == 3) = true := by
    cases manager with
    | firstFit => decide +kernel
    | bestFit => decide +kernel
  have steady : Steady (freeThree manager base (base + 1) (base + 2) large) :=
    freePages_steady.bind fun _ => freePages_steady.bind fun _ => freePages_steady
  have lockstep (fuel : Nat) : Lockstep (Mirrored base 3 background)
      (freeThree manager base (base + 1) (base + 2) large fuel)
      (freeThree manager 0 1 2 blankMemory fuel) :=
    (mirrored.free (p := 0) (by decide)).bind fun large small mirrored =>
      (mirrored.free (p := 1) (by decide)).bind fun large small mirrored =>
        mirrored.free (p := 2) (by decide)
  obtain ⟨after, afterSmall, returns, mirroredAfter, counted⟩ :=
    steady.follow_computed lockstep computed
  exact ⟨after, returns, mirroredAfter.nrFree.trans (beq_iff_eq.mp counted)⟩

namespace FitManager

def checkEmptied : FitManager → (p0 : Nat) → FitMemory → Bounded (Nat × FitMemory)
  | firstFit => defaultCheckEmptied defaultPmmManager
  | bestFit => bestFitCheckEmptied bestFitPmmManager

def check : FitManager → (npage : Nat) → FitMemory → Bounded FitMemory
  | firstFit => defaultCheck
  | bestFit => bestFitCheck

theorem check_eq (manager : FitManager) :
    manager.check = fitCheck manager.pmm manager.checkEmptied := by
  cases manager <;> rfl

end FitManager

theorem checkEmptied_returns (manager : FitManager)
    (mirrored : Mirrored base 5 background large blankMemory) :
    ∃ after, Returns (manager.checkEmptied base large) (base, after) ∧
      Lent ⟨base, 5⟩ background after := by
  have computed : (manager.checkEmptied 0 blankMemory 9).toOption.any
      (fun result => result.1 == 0 && allUnmarked 5 result.2) = true := by
    cases manager with
    | firstFit => decide +kernel
    | bestFit => decide +kernel
  have steady : Steady (manager.checkEmptied base large) := by
    cases manager with
    | firstFit => exact defaultCheckEmptied_steady .firstFit base large
    | bestFit => exact bestFitCheckEmptied_steady .bestFit base large
  have lockstep (fuel : Nat) :
      Lockstep (fun a b => a.1 = base + b.1 ∧ Mirrored base 5 background a.2 b.2)
        (manager.checkEmptied base large fuel) (manager.checkEmptied 0 blankMemory fuel) := by
    cases manager with
    | firstFit => exact @Mirrored.defaultCheckEmptied _ _ _ _ _ .firstFit mirrored
    | bestFit => exact @Mirrored.bestFitCheckEmptied _ _ _ _ _ .bestFit mirrored
  obtain ⟨⟨page, after⟩, ⟨pageSmall, afterSmall⟩, returns, ⟨rfl, mirroredAfter⟩, checked⟩ :=
    steady.follow_computed lockstep computed
  obtain ⟨same, unmarked⟩ := Bool.and_eq_true_iff.mp checked
  cases beq_iff_eq.mp same
  exact ⟨after, returns, mirroredAfter.lent unmarked⟩

end Ucore.Mm.Fit
