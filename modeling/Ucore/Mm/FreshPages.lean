import Ucore.Mm.Buddy.Descriptor
import Ucore.Mm.Fit.Confined
import Ucore.Mm.Fit.Steady

namespace Ucore.Mm

open Ucore.Data Ucore.Libs

/-! The descriptor of a page that `alloc_pages` just returned. -/

structure FreshPage (ref : Int) (flags : Nat) : Prop where
  ref : ref = 0
  reserved : PageReserved flags = false
  property : PageProperty flags = false

/-- A state that a run reaches, and the answer of `alloc_pages(count)` in it. -/
def Granted {σ : Type} (manager : PmmManager σ) (last : Client σ) (count page : Nat) (after : σ) :
    Prop :=
  ∃ memory base n client trace, Booted manager memory base n client ∧
    Run (Step manager) client trace last ∧
    Returns (manager.allocPages last.memory count) (some page, after)

/-- `page_ref(p)`: the lower half of the word that it shares with `link.prev`, as an `int`. -/
def buddyPageRef (memory : BuddyMemory) (p : Nat) : Int :=
  int32 (listPrev memory.links p)

/-- List entries and page descriptors are aligned to pointers. -/
structure Layout.Aligned (layout : Layout) : Prop where
  freeLists : 8 ∣ layout.freeLists
  pages : 8 ∣ layout.pages

variable {layout : Layout}

theorem Layout.Aligned.freeList (aligned : layout.Aligned) (order : Nat) :
    8 ∣ layout.freeList order := by
  have lists := aligned.freeLists
  rw [Layout.freeList]
  omega

theorem Layout.Aligned.page (aligned : layout.Aligned) (index : Nat) : 8 ∣ layout.page index := by
  have pages := aligned.pages
  rw [Layout.page]
  omega

/-- A pointer with `PG_property` cleared looks like the flags of an unmarked page. -/
theorem pointer_flags {pointer : Nat} (aligned : 8 ∣ pointer) :
    PageReserved (ClearPageProperty pointer) = false ∧
      PageProperty (ClearPageProperty pointer) = false := by
  refine ⟨?_, pageProperty_clear pointer⟩
  have even : ¬ pointer % 2 = 1 := by omega
  rw [pageReserved_clear, pageReserved_eq, Nat.testBit_zero, decide_eq_false even]

theorem int32_zero_iff (value : Nat) : int32 value = 0 ↔ value % 2 ^ 32 = 0 := by
  have zero (width : Nat) : Int.bmod value width = 0 ↔ value % width = 0 := by
    rw [← Int.dvd_iff_bmod_eq_zero, Int.natCast_dvd_natCast, Nat.dvd_iff_mod_eq_zero]
  exact zero _

/-- The three managers that `init_pmm_manager` can choose from. -/
inductive Manager where
  | fit (manager : Fit.FitManager)
  | buddy (layout : Layout) (aligned : layout.Aligned)

namespace Manager

/-- The memory that the manager works on. -/
abbrev Memory : Manager → Type
  | fit _ => FitMemory
  | buddy _ _ => BuddyMemory

def pmm : (manager : Manager) → PmmManager manager.Memory
  | fit manager => manager.pmm
  | buddy layout _ => buddyPmmManager layout

def pageRef : (manager : Manager) → manager.Memory → (page : Nat) → Int
  | fit _, memory, page => (memory.pages page).ref
  | buddy layout _, memory, page => buddyPageRef memory (layout.page page)

def pageFlags : (manager : Manager) → manager.Memory → (page : Nat) → Nat
  | fit _, memory, page => (memory.pages page).flags
  | buddy layout _, memory, page => buddyFlags memory (layout.page page)

/-- The low half of the address of the list that the block will be taken from is zero. -/
def ZeroSource : (manager : Manager) → manager.Memory → (count : Nat) → Prop
  | fit _, _, _ => True
  | buddy layout _, memory, count =>
      layout.freeList (Buddy.sourceOrder layout memory count) % 2 ^ 32 = 0

end Manager

theorem fit_freshPage {manager : Fit.FitManager} {last : Client FitMemory} {count page : Nat}
    {after : FitMemory} (granted : Granted manager.pmm last count page after) :
    FreshPage (after.pages page).ref (after.pages page).flags := by
  obtain ⟨memory, base, n, client, trace, booted, run, result⟩ := granted
  obtain ⟨listed, confined⟩ := (Fit.confined_run booted run).memory
  obtain ⟨_, _, _, ref, flags⟩ := confined.allocated result
  rw [flags]
  exact ⟨ref, rfl, rfl⟩

theorem buddy_freshPage_iff {last : Client BuddyMemory} {count page : Nat} {after : BuddyMemory}
    (aligned : layout.Aligned) (granted : Granted (buddyPmmManager layout) last count page after) :
    FreshPage (buddyPageRef after (layout.page page)) (buddyFlags after (layout.page page)) ↔
      layout.freeList (Buddy.sourceOrder layout last.memory count) % 2 ^ 32 = 0 := by
  obtain ⟨memory, base, n, client, trace, booted, run, result⟩ := granted
  obtain ⟨_, free, sound⟩ := Buddy.sound_run booted run
  obtain ⟨source, next, pointer, flags⟩ :=
    sound.holds.granted_entry sound.consistent.once_free result
  have unmarked : 8 ∣ next := by
    rcases pointer with rfl | ⟨other, rfl⟩
    · exact aligned.freeList _
    · exact aligned.page other
  have ref := int32_zero_iff (listPrev after.links (layout.page page))
  rw [source] at ref
  rw [← ref, buddyPageRef, source, flags]
  constructor
  · intro fresh
    exact fresh.ref
  · intro zero
    exact ⟨zero, (pointer_flags unmarked).1, (pointer_flags unmarked).2⟩

/-- A page that a fit manager returns has no mark, whatever happened to the list.  One that the buddy
system returns has the pointer to the list it was taken from in the word of `ref`. -/
theorem freshPage_iff {manager : Manager} {last : Client manager.Memory} {count page : Nat}
    {after : manager.Memory} (granted : Granted manager.pmm last count page after) :
    FreshPage (manager.pageRef after page) (manager.pageFlags after page) ↔
      manager.ZeroSource last.memory count := by
  cases manager with
  | fit manager => exact iff_of_true (fit_freshPage granted) trivial
  | buddy layout aligned => exact buddy_freshPage_iff aligned granted

theorem granted_of_script {σ : Type} {manager : PmmManager σ} {memory : σ}
    {fuel base n count : Nat} {requests : List Request} (steady : manager.SteadyOps)
    (check : Client σ → Nat → σ → Bool)
    (computed : (script manager fuel (fun _ _ => true) memory base n requests).toOption.any
      (fun last => (manager.allocPages last.memory count fuel).toOption.any
        fun answer => answer.1.any fun page => check last page answer.2) = true) :
    ∃ last page after, Granted manager last count page after ∧ check last page after = true := by
  obtain ⟨client, trace, last, booted, run, _, _, answered⟩ := script_run steady _ computed
  obtain ⟨⟨found, after⟩, returns, isChecked⟩ := (steady.allocPages last.memory count).computed answered
  cases found with
  | none => cases isChecked
  | some page =>
      exact ⟨last, page, after, ⟨memory, base, n, client, trace, booted, run, returns⟩, isChecked⟩

/-- Addresses as the linker places them: the lists in the kernel image, the pages behind it. -/
def imageLayout : Layout where
  freeLists := 0xFFFFFFFFC0205018
  pages := 0xFFFFFFFFC0208000
  ordered := by decide

theorem image_aligned : imageLayout.Aligned := ⟨by decide, by decide⟩

theorem fresh_page_granted :
    ∃ last page after, Granted (Manager.buddy imageLayout image_aligned).pmm last 2 page after ∧
      (FreshPage ((Manager.buddy imageLayout image_aligned).pageRef after page)
          ((Manager.buddy imageLayout image_aligned).pageFlags after page) ↔
        (Manager.buddy imageLayout image_aligned).ZeroSource last.memory 2) := by
  have computed : (script (buddyPmmManager imageLayout) 60 (fun _ _ => true) Buddy.bootMemory 520 8
      [.alloc 3]).toOption.any (fun last =>
        ((buddyPmmManager imageLayout).allocPages last.memory 2 60).toOption.any fun answer =>
          answer.1.any fun _ => true) = true := by
    decide +kernel
  obtain ⟨last, page, after, granted, _⟩ :=
    granted_of_script (Buddy.steady imageLayout) (fun _ _ _ => true) computed
  exact ⟨last, page, after, granted,
    @freshPage_iff (.buddy imageLayout image_aligned) last 2 page after granted⟩

/-- The first allocation after the boot returns a page whose `ref` is not zero. -/
theorem granted_page_referenced :
    ∃ last page after, Granted (buddyPmmManager imageLayout) last 1 page after ∧
      ¬ FreshPage (buddyPageRef after (imageLayout.page page))
        (buddyFlags after (imageLayout.page page)) := by
  have computed : (script (buddyPmmManager imageLayout) 60 (fun _ _ => true) Buddy.bootMemory 520 8
      []).toOption.any (fun last =>
        ((buddyPmmManager imageLayout).allocPages last.memory 1 60).toOption.any fun answer =>
          answer.1.any fun page => buddyPageRef answer.2 (imageLayout.page page) ≠ 0) = true := by
    decide +kernel
  obtain ⟨last, page, after, granted, referenced⟩ := granted_of_script (Buddy.steady imageLayout)
    (fun _ page after => buddyPageRef after (imageLayout.page page) ≠ 0) computed
  exact ⟨last, page, after, granted, fun fresh => of_decide_eq_true referenced fresh.ref⟩

end Ucore.Mm
