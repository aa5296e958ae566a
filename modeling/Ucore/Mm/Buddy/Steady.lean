import Ucore.Mm.Script
import Ucore.Mm.Buddy.FreeLists

namespace Ucore.Mm.Buddy

open Ucore.Data Ucore.Libs

/-! The buddy system computes the same with more fuel, so its runs can be computed. -/

variable {layout : Layout}

theorem sizeToOrderLoop_steady (n o s : Nat) : Steady (sizeToOrderLoop n · o s) := by
  intro fuel result done
  induction fuel generalizing o s with
  | zero => cases done
  | succ fuel ih =>
      simp only [sizeToOrderLoop] at done ⊢
      split at done
      · rename_i smaller
        rw [if_pos smaller]
        exact ih _ _ done
      · rename_i enough
        rwa [if_neg enough]

theorem sizeToOrder_steady (n : Nat) : Steady (sizeToOrder n) :=
  sizeToOrderLoop_steady (uint32 n) 0 1

theorem largestOrder_steady (remain o : Nat) : Steady (buddyLargestOrder remain · o) := by
  intro fuel result done
  induction fuel generalizing o with
  | zero => cases done
  | succ fuel ih =>
      simp only [buddyLargestOrder] at done ⊢
      split at done
      · rename_i more
        rw [if_pos more]
        exact ih _ done
      · rename_i stop
        rwa [if_neg stop]

theorem cut_steady (memory : BuddyMemory) (cur remain : Nat) :
    Steady (buddyCut layout · memory cur remain) := by
  intro fuel result done
  induction fuel generalizing memory cur remain with
  | zero => cases done
  | succ fuel ih =>
      simp only [buddyCut] at done ⊢
      split at done
      · rename_i positive
        rw [if_pos positive]
        cases largest : buddyLargestOrder remain fuel 0 with
        | error stop => simp [largest, Bind.bind, Except.bind] at done
        | ok o =>
            simp only [largest, largestOrder_steady _ _ _ _ largest, Bind.bind, Except.bind] at done ⊢
            split at done
            · rename_i above
              rw [if_pos above]
              exact ih _ _ _ done
            · rename_i within
              rw [if_neg within]
              exact ih _ _ _ done
      · rename_i none
        rwa [if_neg none]

theorem findLoop_steady (memory : BuddyMemory) (buddyAddr order le : Nat) :
    Steady (buddyFindLoop layout memory buddyAddr order · le) := by
  intro fuel result done
  induction fuel generalizing le with
  | zero => cases done
  | succ fuel ih =>
      simp only [buddyFindLoop] at done ⊢
      split at done
      · rename_i more
        rw [if_pos more]
        split at done
        · rename_i found
          rwa [if_pos found]
        · rename_i different
          rw [if_neg different]
          exact ih _ done
      · rename_i ends
        rwa [if_neg ends]

theorem findAndRemove_steady (memory : BuddyMemory) (base order : Nat) :
    Steady (buddyFindAndRemove layout memory base order) :=
  findLoop_steady memory (base ^^^ 2 ^ order) order (layout.freeList order)

theorem freeLoop_steady (memory : BuddyMemory) (blk o : Nat) :
    Steady (buddyFreeLoop layout · memory blk o) := by
  intro fuel result done
  induction fuel generalizing memory blk o with
  | zero => cases done
  | succ fuel ih =>
      simp only [buddyFreeLoop] at done ⊢
      split at done
      · rename_i within
        rw [if_pos within]
        cases search : buddyFindAndRemove layout memory blk o fuel with
        | error stop => simp [search, Bind.bind, Except.bind] at done
        | ok answer =>
            simp only [search, findAndRemove_steady _ _ _ _ _ search, Bind.bind, Except.bind]
              at done ⊢
            obtain ⟨found, rest⟩ := answer
            cases found with
            | none => exact done
            | some buddy =>
                simp only at done ⊢
                split at done
                · rename_i beyond
                  rwa [if_pos beyond]
                · rename_i notYet
                  rw [if_neg notYet]
                  exact ih _ _ _ done
      · rename_i beyond
        rwa [if_neg beyond]

theorem initMemmap_steady (memory : BuddyMemory) (base n : Nat) :
    Steady (buddyInitMemmap layout memory base n) := by
  intro fuel result done
  unfold buddyInitMemmap at done ⊢
  split at done
  · cases done
  · rename_i positive
    rw [if_neg positive]
    exact ((Steady.constant _).bind fun cleared => cut_steady cleared base n) _ _ done

theorem allocPages_steady (memory : BuddyMemory) (n : Nat) :
    Steady (buddyAllocPages layout memory n) := by
  intro fuel result done
  unfold buddyAllocPages at done ⊢
  split at done
  · rename_i refused
    rwa [if_pos refused]
  · rename_i granted
    rw [if_neg granted]
    exact ((sizeToOrder_steady n).bind fun _ => .constant _) _ _ done

theorem freePages_steady (memory : BuddyMemory) (base n : Nat) :
    Steady (buddyFreePages layout memory base n) := by
  intro fuel result done
  unfold buddyFreePages at done ⊢
  split at done
  · cases done
  · rename_i positive
    rw [if_neg positive]
    exact ((sizeToOrder_steady n).bind fun o => freeLoop_steady memory base o) _ _ done

theorem steady (layout : Layout) : (buddyPmmManager layout).SteadyOps where
  initMemmap := initMemmap_steady
  allocPages := allocPages_steady
  freePages := freePages_steady

/-- The lists at address 0 and the page descriptors right behind them. -/
def bootLayout : Layout where
  freeLists := 0
  pages := 176
  ordered := by decide

/-- The state in which `page_init` calls `init_memmap`: every page is reserved. -/
def bootMemory : BuddyMemory where
  links := ⟨fun _ => { prev := 0, next := SetPageReserved 0 }⟩
  blocks := fun _ => { order := 0, base := 0 }
  nrFree := 0
  maxOrderInited := 0

abbrev bootManager : PmmManager BuddyMemory := buddyPmmManager bootLayout

/-- A run on the pages 1 to 7, which are cut into blocks that are not aligned. -/
theorem unaligned_run : ∃ client trace last, Booted bootManager bootMemory 1 7 client ∧
    Run (Step bootManager) client trace last ∧
    trace.map Prod.snd = [.alloc 3, .alloc 1, .alloc 1] ∧
    last.outstanding = [⟨5, 1⟩, ⟨7, 1⟩, ⟨1, 3⟩] := by
  have computed : (script bootManager 60 (fun _ _ => true) bootMemory 1 7
      [.alloc 3, .alloc 1, .alloc 1]).toOption.any
        (fun last => last.outstanding = [⟨5, 1⟩, ⟨7, 1⟩, ⟨1, 3⟩]) = true := by
    decide +kernel
  obtain ⟨client, trace, last, booted, run, labels, _, outstanding⟩ :=
    script_run (steady bootLayout) _ computed
  exact ⟨client, trace, last, booted, run, labels, of_decide_eq_true outstanding⟩

/-- A run on the pages 4 to 9 at the end of which nothing is outstanding. -/
theorem aligned_run : ∃ client trace last, Booted bootManager bootMemory 4 6 client ∧
    Run (Step bootManager) client trace last ∧
    trace.map Prod.snd =
      [.alloc 3, .alloc 1, .alloc 1, .free ⟨8, 1⟩, .free ⟨4, 3⟩, .free ⟨9, 1⟩] ∧
    last.outstanding = [] := by
  have computed : (script bootManager 60 (fun _ _ => true) bootMemory 4 6
      [.alloc 3, .alloc 1, .alloc 1, .free ⟨8, 1⟩, .free ⟨4, 3⟩, .free ⟨9, 1⟩]).toOption.any
        (fun last => last.outstanding = []) = true := by
    decide +kernel
  obtain ⟨client, trace, last, booted, run, labels, _, outstanding⟩ :=
    script_run (steady bootLayout) _ computed
  exact ⟨client, trace, last, booted, run, labels, of_decide_eq_true outstanding⟩

end Ucore.Mm.Buddy
