import Ucore.Mm.Script
import Ucore.Mm.Fit.Invariant

namespace Ucore.Mm.Fit

open Ucore.Data Ucore.Libs

/-! The fit managers compute the same with more fuel, so their runs can be computed. -/

theorem fitInsertLoop_steady (base : Nat) (links : Links Link) (le : Link) :
    Steady (fitInsertLoop base · links le) := by
  intro fuel result done
  induction fuel generalizing links le with
  | zero => cases done
  | succ fuel ih =>
      simp only [fitInsertLoop] at done ⊢
      cases next : listNext links le with
      | freeList => simpa only [next] using done
      | page page =>
          simp only [next] at done ⊢
          split at done
          · rename_i above
            rwa [if_pos above]
          · rename_i below
            rw [if_neg below]
            split at done
            · rename_i ends
              rw [if_pos ends]
              exact ih _ _ done
            · rename_i more
              rw [if_neg more]
              exact ih _ _ done

theorem fitInsert_steady (memory : FitMemory) (base : Nat) : Steady (fitInsert memory base) := by
  intro fuel result done
  unfold fitInsert at done ⊢
  split at done
  · rename_i empty
    rwa [if_pos empty]
  · rename_i nonempty
    rw [if_neg nonempty]
    exact ((fitInsertLoop_steady base memory.links .freeList).bind fun _ => .constant _) _ _ done

theorem defaultSearchLoop_steady (memory : FitMemory) (n : Nat) (le : Link) :
    Steady (defaultSearchLoop memory n · le) := by
  intro fuel result done
  induction fuel generalizing le with
  | zero => cases done
  | succ fuel ih =>
      simp only [defaultSearchLoop] at done ⊢
      cases next : listNext memory.links le with
      | freeList => simpa only [next] using done
      | page page =>
          simp only [next] at done ⊢
          split at done
          · rename_i fits
            rwa [if_pos fits]
          · rename_i small
            rw [if_neg small]
            exact ih _ done

theorem bestFitSearchLoop_steady (memory : FitMemory) (n : Nat) (le : Link) (page : Option Nat)
    (minSize : Nat) : Steady (bestFitSearchLoop memory n · le page minSize) := by
  intro fuel result done
  induction fuel generalizing le page minSize with
  | zero => cases done
  | succ fuel ih =>
      simp only [bestFitSearchLoop] at done ⊢
      cases next : listNext memory.links le with
      | freeList => simpa only [next] using done
      | page page =>
          simp only [next] at done ⊢
          split at done
          · rename_i better
            rw [if_pos better]
            exact ih _ _ _ done
          · rename_i worse
            rw [if_neg worse]
            exact ih _ _ _ done

theorem FitManager.search_steady (manager : FitManager) (memory : FitMemory) (n : Nat) :
    Steady (manager.search memory n) := by
  cases manager with
  | firstFit => exact defaultSearchLoop_steady memory n .freeList
  | bestFit => exact bestFitSearchLoop_steady memory n .freeList none _

theorem fitAllocPages_steady (manager : FitManager) (memory : FitMemory) (n : Nat) :
    Steady (fitAllocPages manager.search memory n) := by
  intro fuel result done
  unfold fitAllocPages at done ⊢
  split at done
  · cases done
  · rename_i positive
    rw [if_neg positive]
    split at done
    · rename_i tooMany
      rwa [if_pos tooMany]
    · rename_i enough
      rw [if_neg enough]
      cases found : manager.search memory n fuel with
      | error stop => simp [found, Bind.bind, Except.bind] at done
      | ok answer =>
          rw [found] at done
          rwa [manager.search_steady memory n _ _ found]

theorem fitInitMemmap_steady (memory : FitMemory) (base n : Nat) :
    Steady (fitInitMemmap memory base n) := by
  intro fuel result done
  unfold fitInitMemmap at done ⊢
  split at done
  · cases done
  · rename_i positive
    rw [if_neg positive]
    exact ((Steady.constant _).bind fun _ => fitInsert_steady _ _) _ _ done

theorem fitFreePages_steady (memory : FitMemory) (base n : Nat) :
    Steady (fitFreePages memory base n) := by
  intro fuel result done
  unfold fitFreePages at done ⊢
  split at done
  · cases done
  · rename_i positive
    rw [if_neg positive]
    exact ((Steady.constant _).bind fun _ => (fitInsert_steady _ _).bind fun _ => .constant _) _ _ done

theorem FitManager.steady (manager : FitManager) : manager.pmm.SteadyOps where
  initMemmap := by simpa using fitInitMemmap_steady
  allocPages := by simpa using fitAllocPages_steady manager
  freePages := by simpa using fitFreePages_steady

/-- The state in which `page_init` calls `init_memmap`: every page is reserved. -/
def bootMemory : FitMemory where
  links := ⟨fun _ => ⟨.freeList, .freeList⟩⟩
  pages := fun _ => { ref := 0, flags := SetPageReserved 0, property := 0 }
  nrFree := 0

/-- The blocks met by following `next`, if the head is met again within the fuel. -/
def heads (links : Links Link) : Nat → Link → Option (List Nat)
  | 0, _ => none
  | fuel + 1, le =>
      match listNext links le with
      | .freeList => some []
      | .page p => (heads links fuel (.page p)).map (p :: ·)

theorem heads_walk {links : Links Link} {fuel : Nat} {le : Link} {found : List Nat}
    (walked : heads links fuel le = some found) :
    Walk (listNext links) le (found.map .page) .freeList := by
  induction fuel generalizing le found with
  | zero => cases walked
  | succ fuel ih =>
      rw [heads] at walked
      cases next : listNext links le with
      | freeList =>
          simp only [next] at walked
          cases walked
          exact next
      | page p =>
          simp only [next] at walked
          obtain ⟨rest, inner, rfl⟩ := Option.map_eq_some_iff.mp walked
          exact ⟨next, ih inner⟩

theorem heads_circuit {links : Links Link} {fuel : Nat} {found : List Nat}
    (walked : heads links fuel .freeList = some found) :
    Circuit (listNext links) .freeList (found.map .page) :=
  ⟨heads_walk walked, by simp⟩

def keepsOrder (fuel : Nat) (client : Client FitMemory) : Request → Bool
  | .alloc _ => true
  | .free block =>
      (heads client.memory.links fuel .freeList).any fun found =>
        found.isEmpty || found.any (block.page < ·)

theorem keepsOrder_sound {fuel : Nat} {client : Client FitMemory} {request : Request}
    (keeps : keepsOrder fuel client request = true) : KeepsOrder client request := by
  cases request with
  | alloc => trivial
  | free block =>
      obtain ⟨found, walked, keeps⟩ := Option.any_eq_true _ _ |>.mp keeps
      refine ⟨found, heads_circuit walked, ?_⟩
      simpa using keeps

/-- A run on six pages in which both frees keep the order. -/
theorem ordered_run : ∃ client trace last,
    Booted FitManager.firstFit.pmm bootMemory 0 6 client ∧
      Run (Step FitManager.firstFit.pmm) client trace last ∧
      trace.map Prod.snd = [.alloc 2, .alloc 1, .alloc 1, .free ⟨2, 1⟩, .free ⟨0, 2⟩] ∧
      ∀ taken ∈ trace, KeepsOrder taken.1 taken.2 := by
  have computed : (script FitManager.firstFit.pmm 9 (keepsOrder 9) bootMemory 0 6
      [.alloc 2, .alloc 1, .alloc 1, .free ⟨2, 1⟩, .free ⟨0, 2⟩]).toOption.any (fun _ => true)
        = true := by
    decide +kernel
  obtain ⟨client, trace, last, booted, run, labels, checked, _⟩ :=
    script_run FitManager.firstFit.steady _ computed
  exact ⟨client, trace, last, booted, run, labels,
    fun taken member => keepsOrder_sound (checked taken member)⟩

end Ucore.Mm.Fit
