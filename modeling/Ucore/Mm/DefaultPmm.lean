import Ucore.Mm.FitPmm

namespace Ucore.Mm

open Ucore.Data Ucore.Libs

/-! `kern/mm/default_pmm.c`: first fit. -/

/-- The search loop of `default_alloc_pages`. -/
def defaultSearchLoop (memory : FitMemory) (n : Nat) : Nat → Link → Except Stop (Option Nat)
  | 0, _ => .error .outOfFuel
  | fuel + 1, le =>
      match listNext memory.links le with
      | .freeList => .ok none
      | .page p =>
          if (memory.pages p).property ≥ n then
            .ok (some p)
          else
            defaultSearchLoop memory n fuel (.page p)

def defaultSearch (memory : FitMemory) (n : Nat) : Bounded (Option Nat) := fun fuel =>
  defaultSearchLoop memory n fuel .freeList

def defaultInit : FitMemory → FitMemory := fitInit

def defaultInitMemmap : FitMemory → (base n : Nat) → Bounded FitMemory := fitInitMemmap

def defaultAllocPages : FitMemory → (n : Nat) → Bounded (Option Nat × FitMemory) :=
  fitAllocPages defaultSearch

def defaultFreePages : FitMemory → (base n : Nat) → Bounded FitMemory := fitFreePages

def defaultNrFreePages : FitMemory → Nat := fitNrFreePages

def defaultPmmManager : PmmManager FitMemory where
  name := "default_pmm_manager"
  init := defaultInit
  initMemmap := defaultInitMemmap
  allocPages := defaultAllocPages
  freePages := defaultFreePages
  nrFreePages := defaultNrFreePages

end Ucore.Mm
