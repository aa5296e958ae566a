import Ucore.Mm.Fit.Invariant

namespace Ucore.Mm.Fit

open Ucore.Data Ucore.Libs Extent

/-! What holds of a fit manager and its client in every run.

A free behind the last entry damages the list, but even then the links lead to
pages of the region only, and no page of the region is reserved, referenced or
said to head a block that leaves the region.
-/

/-- A page of the region as the manager leaves it. -/
structure Tame (region : Extent) (index : Nat) (page : Page) : Prop where
  ref : page.ref = 0
  flags : page.flags = 0 ∨ page.flags = 2
  property : index + page.property ≤ region.start + region.size

structure Confined (region : Extent) (memory : FitMemory) (listed : Set Link) : Prop where
  head : Link.freeList ∈ listed
  closed : Closed memory.links listed
  within : ∀ page, .page page ∈ listed → page ∈ region.points
  tame : ∀ page ∈ region.points, Tame region page (memory.pages page)

variable {memory after : FitMemory} {region : Extent} {listed : Set Link} {links : Links Link}
  {le : Link} {base n p q index fuel : Nat} {change : Page → Page}

theorem setPageProperty_tame {flags : Nat} (tame : flags = 0 ∨ flags = 2) :
    SetPageProperty flags = 2 := by
  rcases tame with rfl | rfl <;> rfl

theorem clearPageProperty_tame {flags : Nat} (tame : flags = 0 ∨ flags = 2) :
    ClearPageProperty flags = 0 := by
  rcases tame with rfl | rfl <;> rfl

namespace Confined

theorem modifyPage (confined : Confined region memory listed)
    (tame : index ∈ region.points → Tame region index (change (memory.pages index))) :
    Confined region (memory.modifyPage index change) listed := by
  refine { confined with tame := fun page inside => ?_ }
  rw [modifyPage_pages]
  split
  · rename_i same
    subst same
    exact tame inside
  · exact confined.tame page inside

theorem linked (confined : Confined region memory listed)
    (closed : Closed links (insert (.page index) listed)) (inside : index ∈ region.points) :
    Confined region { memory with links } (insert (.page index) listed) := by
  refine ⟨.inr confined.head, closed, fun page member => ?_, confined.tame⟩
  rcases member with isNew | old
  · rwa [Link.page.inj isNew]
  · exact confined.within page old

theorem unlinked (confined : Confined region memory listed) (member : .page index ∈ listed) :
    Confined region { memory with links := listDel memory.links (.page index) } listed :=
  { confined with closed := confined.closed.del member }

theorem clearProperty (confined : Confined region memory listed) (nrFree : Nat) :
    Confined region (({ memory with nrFree } : FitMemory).modifyPage p fun page =>
      { page with flags := ClearPageProperty page.flags }) listed := by
  have same : Confined region { memory with nrFree } listed := { confined with }
  apply same.modifyPage
  intro inside
  have tame := confined.tame p inside
  exact ⟨tame.ref, .inl (clearPageProperty_tame tame.flags), tame.property⟩

theorem addRest (confined : Confined region memory listed) {size : Nat} (position : le ∈ listed)
    (inside : index ∈ region.points) (fits : index + size ≤ region.start + region.size) :
    Confined region { memory.modifyPage index fun page =>
        { page with property := uint32 size, flags := SetPageProperty page.flags } with
      links := listAdd memory.links le (.page index) } (insert (.page index) listed) := by
  apply Confined.linked _ (confined.closed.add position) inside
  apply confined.modifyPage
  intro _
  have tame := confined.tame index inside
  have small := uint32_le size
  refine ⟨tame.ref, .inr (setPageProperty_tame tame.flags), ?_⟩
  simp only
  omega

/-- Taking pages from a listed block hands out a page that is not marked at all. -/
theorem take (confined : Confined region memory listed) (member : .page p ∈ listed)
    (positive : 0 < n) :
    ∃ listed, Confined region (fitTake memory p n) listed ∧
      ((fitTake memory p n).pages p).ref = 0 ∧ ((fitTake memory p n).pages p).flags = 0 := by
  have inside := confined.within p member
  have tame := confined.tame p inside
  have previous := confined.closed.prev _ member
  have removed := confined.unlinked member
  have notZero : n ≠ 0 := positive.ne'
  unfold fitTake
  simp only
  split
  · rename_i more
    have bound := mem_points.mp inside
    have reach := tame.property
    have insideRest : p + n ∈ region.points := mem_points.mpr ⟨by omega, by omega⟩
    have fitsRest : p + n + ((memory.pages p).property - n) ≤ region.start + region.size := by
      omega
    have added := removed.addRest previous insideRest fitsRest
    refine ⟨_, added.clearProperty _, ?_, ?_⟩
    · simp [notZero, tame.ref]
    · simp [notZero, clearPageProperty_tame tame.flags]
  · refine ⟨_, removed.clearProperty _, ?_, ?_⟩
    · simp [tame.ref]
    · simp [clearPageProperty_tame tame.flags]

theorem join (confined : Confined region memory listed) (second : .page q ∈ listed)
    (touch : p + (memory.pages p).property = q) :
    Confined region (fitJoin memory p q) listed := by
  have grown : Confined region (memory.modifyPage p fun page =>
      { page with property := uint32 (page.property + (memory.pages q).property) }) listed := by
    apply confined.modifyPage
    intro inside
    have tame := confined.tame p inside
    have reach := (confined.tame q (confined.within q second)).property
    have small := uint32_le ((memory.pages p).property + (memory.pages q).property)
    refine ⟨tame.ref, tame.flags, ?_⟩
    simp only
    omega
  apply unlinked _ second
  apply grown.modifyPage
  intro inside
  have tame := grown.tame q inside
  exact ⟨tame.ref, .inl (clearPageProperty_tame tame.flags), tame.property⟩

theorem mergePrev (confined : Confined region memory listed) (member : .page base ∈ listed) :
    Confined region (fitMergePrev memory base).1 listed ∧
      .page (fitMergePrev memory base).2 ∈ listed := by
  have before := confined.closed.prev _ member
  unfold fitMergePrev
  split
  · exact ⟨confined, member⟩
  · rename_i p previous
    rw [previous] at before
    split
    · rename_i touch
      exact ⟨confined.join member touch, before⟩
    · exact ⟨confined, member⟩

theorem mergeNext (confined : Confined region memory listed) (member : .page base ∈ listed) :
    Confined region (fitMergeNext memory base) listed := by
  have behind := confined.closed.next _ member
  unfold fitMergeNext
  split
  · exact confined
  · rename_i p next
    rw [next] at behind
    split
    · rename_i touch
      exact confined.join behind touch
    · exact confined

end Confined

/-! The insertion loop threads `base` in, perhaps more than once. -/

theorem fitInsertLoop_closed {result : Links Link} (closed : Closed links listed) (start : le ∈ listed)
    (inserts : .page base ∈ listed ∨ listNext links le ≠ .freeList)
    (done : fitInsertLoop base fuel links le = .ok result) :
    Closed result (insert (.page base) listed) := by
  induction fuel generalizing links le listed with
  | zero => cases done
  | succ fuel ih =>
      have member := closed.next le start
      rw [fitInsertLoop] at done
      cases next : listNext links le with
      | freeList =>
          simp only [next] at done
          cases done
          have already := inserts.resolve_right fun notHead => notHead next
          rwa [Set.insert_eq_of_mem already]
      | page page =>
          simp only [next] at done member
          split at done
          · cases done
            exact closed.addBefore member
          · split at done
            · have added : Closed _ (insert (.page base) listed) := closed.add member
              have again := ih added (.inr member) (.inl (.inl rfl)) done
              rwa [Set.insert_idem] at again
            · rename_i more
              exact ih closed member (.inr more) done

namespace Confined

theorem insert (confined : Confined region memory listed) (inside : base ∈ region.points)
    (done : fitInsert memory base fuel = .ok after) :
    Confined region after (insert (.page base) listed) := by
  unfold fitInsert at done
  split at done
  · cases done
    exact confined.linked (confined.closed.add confined.head) inside
  · rename_i nonempty
    cases threaded : fitInsertLoop base fuel memory.links .freeList with
    | error stop => simp [threaded, Bind.bind, Except.bind] at done
    | ok links =>
        simp only [threaded, Bind.bind, Except.bind] at done
        cases done
        have notHead : listNext memory.links .freeList ≠ .freeList := by
          simpa [listEmpty] using nonempty
        exact confined.linked
          (fitInsertLoop_closed confined.closed confined.head (.inr notHead) threaded) inside

theorem clearFreed (confined : Confined region memory listed)
    (done : fitClearFreed memory p n = .ok after) : Confined region after listed := by
  induction n generalizing memory p with
  | zero =>
      cases done
      exact confined
  | succ n ih =>
      rw [fitClearFreed] at done
      split at done
      · refine ih (confined.modifyPage fun inside => ?_) done
        exact ⟨rfl, .inl rfl, (confined.tame p inside).property⟩
      · cases done

theorem markFree (confined : Confined region memory listed)
    (fits : base + n ≤ region.start + region.size) :
    Confined region (fitMarkFree memory base n) listed := by
  have marked : Confined region (memory.modifyPage base fun page =>
      { page with property := uint32 n, flags := SetPageProperty page.flags }) listed := by
    apply confined.modifyPage
    intro inside
    have tame := confined.tame base inside
    have small := uint32_le n
    refine ⟨tame.ref, .inr (setPageProperty_tame tame.flags), ?_⟩
    simp only
    omega
  exact { marked with }

theorem free (confined : Confined region memory listed) (inside : base ∈ region.points)
    (fits : base + n ≤ region.start + region.size)
    (done : fitFreePages memory base n fuel = .ok after) :
    ∃ listed, Confined region after listed := by
  unfold fitFreePages at done
  split at done
  · cases done
  · cases cleared : fitClearFreed memory base n with
    | error stop => simp [cleared, Bind.bind, Except.bind] at done
    | ok unmarked =>
        cases inserted : fitInsert (fitMarkFree unmarked base n) base fuel with
        | error stop => simp [cleared, inserted, Bind.bind, Except.bind] at done
        | ok threaded =>
            simp only [cleared, inserted, Bind.bind, Except.bind, Except.ok.injEq] at done
            subst done
            have confined := ((confined.clearFreed cleared).markFree fits).insert inside inserted
            obtain ⟨merged, member⟩ := confined.mergePrev (.inl rfl)
            exact ⟨_, merged.mergeNext member⟩

end Confined

/-! The searches return listed pages. -/

/-- A listed page whose block is large enough. -/
def Candidate (memory : FitMemory) (listed : Set Link) (n page : Nat) : Prop :=
  .page page ∈ listed ∧ n ≤ (memory.pages page).property

theorem defaultSearchLoop_candidate (closed : Closed memory.links listed) (start : le ∈ listed)
    (done : defaultSearchLoop memory n fuel le = .ok (some p)) : Candidate memory listed n p := by
  induction fuel generalizing le with
  | zero => cases done
  | succ fuel ih =>
      have member := closed.next le start
      rw [defaultSearchLoop] at done
      cases next : listNext memory.links le with
      | freeList => simp [next] at done
      | page page =>
          simp only [next] at done member
          split at done
          · rename_i fits
            cases done
            exact ⟨member, fits⟩
          · exact ih member done

theorem bestFitSearchLoop_candidate {page : Option Nat} {minSize : Nat}
    (closed : Closed memory.links listed) (start : le ∈ listed)
    (best : ∀ page', page = some page' → Candidate memory listed n page')
    (done : bestFitSearchLoop memory n fuel le page minSize = .ok (some p)) :
    Candidate memory listed n p := by
  induction fuel generalizing le page minSize with
  | zero => cases done
  | succ fuel ih =>
      have member := closed.next le start
      rw [bestFitSearchLoop] at done
      cases next : listNext memory.links le with
      | freeList =>
          simp only [next] at done
          cases done
          exact best p rfl
      | page found =>
          simp only [next] at done member
          split at done
          · rename_i better
            refine ih member (fun page' same => ?_) done
            cases same
            exact ⟨member, better.1⟩
          · exact ih member best done

theorem FitManager.search_candidate {manager : FitManager} (closed : Closed memory.links listed)
    (head : .freeList ∈ listed) (done : manager.search memory n fuel = .ok (some p)) :
    Candidate memory listed n p := by
  cases manager with
  | firstFit => exact defaultSearchLoop_candidate closed head done
  | bestFit =>
      apply bestFitSearchLoop_candidate closed head _ done
      intro page' same
      cases same

/-! The manager and its client. -/

structure ConfinedClient (region : Extent) (client : Client FitMemory) : Prop where
  memory : ∃ listed, Confined region client.memory listed
  outstanding : ∀ block ∈ client.outstanding, block.page ∈ region.points ∧
    block.page + block.count ≤ region.start + region.size

variable {manager : FitManager} {client next last : Client FitMemory} {request : Request}
  {trace : List (Client FitMemory × Request)} {count page : Nat}

theorem Confined.booted (done : fitInitMemmap (fitInit memory) base n fuel = .ok after) :
    ∃ listed, Confined ⟨base, n⟩ after listed := by
  unfold fitInitMemmap at done
  split at done
  · cases done
  · rename_i positive
    cases cleared : fitClearReserved (fitInit memory) base n with
    | error stop => simp [cleared, Bind.bind, Except.bind] at done
    | ok blank =>
        simp only [cleared, Bind.bind, Except.bind] at done
        obtain ⟨links, _, pages⟩ := fitClearReserved_ok cleared
        have confined : Confined ⟨base, n⟩ blank {.freeList} := by
          refine ⟨rfl, ?_, fun page member => (nomatch member), fun page inside => ?_⟩
          · rw [links]
            exact Closed.init memory.links .freeList
          · rw [pages, if_pos (mem_points.mp inside)]
            have bound := mem_points.mp inside
            exact ⟨rfl, .inl rfl, Nat.le_of_lt bound.2⟩
        have start : base ∈ (⟨base, n⟩ : Extent).points :=
          mem_points.mpr ⟨le_rfl, Nat.lt_add_of_pos_right (Nat.pos_of_ne_zero positive)⟩
        exact ⟨_, (confined.markFree le_rfl).insert start done⟩

theorem allocPages_inv {answer : Option Nat}
    (result : Returns (manager.pmm.allocPages memory count) (answer, after)) :
    (answer = none ∧ after = memory) ∨ ∃ fuel page, answer = some page ∧
      manager.search memory count fuel = .ok (some page) ∧ after = fitTake memory page count := by
  have positive := manager.allocPages_positive result
  obtain ⟨fuel, done⟩ := result.some_fuel
  rw [FitManager.pmm_allocPages, fitAllocPages, if_neg positive.ne'] at done
  split at done
  · cases done
    exact .inl ⟨rfl, rfl⟩
  · cases found : manager.search memory count fuel with
    | error stop => simp [found, Bind.bind, Except.bind] at done
    | ok chosen =>
        simp only [found, Bind.bind, Except.bind] at done
        cases chosen with
        | none =>
            cases done
            exact .inl ⟨rfl, rfl⟩
        | some page =>
            cases done
            exact .inr ⟨fuel, page, rfl, found, rfl⟩

/-- A page that is handed out is a page of the region, without marks. -/
theorem Confined.allocated (confined : Confined region memory listed)
    (result : Returns (manager.pmm.allocPages memory count) (some page, after)) :
    (∃ listed, Confined region after listed) ∧ page ∈ region.points ∧
      page + count ≤ region.start + region.size ∧
      (after.pages page).ref = 0 ∧ (after.pages page).flags = 0 := by
  rcases allocPages_inv result with refused | ⟨fuel, chosen, same, found, rfl⟩
  · cases refused.1
  · cases same
    obtain ⟨member, fits⟩ := FitManager.search_candidate confined.closed confined.head found
    obtain ⟨listed, taken, ref, flags⟩ :=
      confined.take member (manager.allocPages_positive result)
    have inside := confined.within page member
    have reach := (confined.tame page inside).property
    exact ⟨⟨listed, taken⟩, inside, by omega, ref, flags⟩

theorem ConfinedClient.step (confined : ConfinedClient region client)
    (step : Step manager.pmm client request next) : ConfinedClient region next := by
  obtain ⟨listed, memory⟩ := confined.memory
  cases step with
  | allocated result =>
      obtain ⟨taken, inside, fits, _⟩ := memory.allocated result
      refine ⟨taken, fun block member => ?_⟩
      rcases List.mem_cons.mp member with isNew | old
      · rw [isNew]
        exact ⟨inside, fits⟩
      · exact confined.outstanding block old
  | refused result =>
      rcases allocPages_inv result with refused | ⟨_, _, granted, _⟩
      · rw [refused.2]
        exact ⟨⟨listed, memory⟩, confined.outstanding⟩
      · cases granted
  | @freed before after outstanding block member result =>
      rw [FitManager.pmm_freePages] at result
      obtain ⟨fuel, done⟩ := result.some_fuel
      obtain ⟨inside, fits⟩ := confined.outstanding block member
      exact ⟨memory.free inside fits done,
        fun other kept => confined.outstanding other (List.mem_of_mem_erase kept)⟩

theorem confined_run (booted : Booted manager.pmm memory base n client)
    (run : Run (Step manager.pmm) client trace last) : ConfinedClient ⟨base, n⟩ last := by
  have initial : ConfinedClient ⟨base, n⟩ client := by
    obtain ⟨result, none⟩ := booted
    rw [FitManager.pmm_initMemmap, FitManager.pmm_init] at result
    obtain ⟨fuel, done⟩ := result.some_fuel
    exact ⟨Confined.booted done, by simp [none]⟩
  have preserved {state next : Client FitMemory} {request : Request}
      (confined : ConfinedClient ⟨base, n⟩ state) (_ : True)
      (step : Step manager.pmm state request next) : ConfinedClient ⟨base, n⟩ next :=
    confined.step step
  exact (run.invariant _ preserved initial fun _ _ => trivial).2

end Ucore.Mm.Fit
