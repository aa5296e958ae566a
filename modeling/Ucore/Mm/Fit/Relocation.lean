import Ucore.Mm.Fit.Mirrors
import Ucore.Mm.Fit.Steady

namespace Ucore.Mm.Fit

open Ucore.Data Ucore.Libs Extent

/-! The calls of a manager, on a region and on the same region at the start of the array. -/

variable {base baseOther size p n index fuel page : Nat}
  {background large small memory memoryOther : FitMemory} {listed : Set Link} {le : Link}
  {largeLinks smallLinks : Links Link} {manager : FitManager}
  {client clientOther largeClient smallClient next last : Client FitMemory} {request : Request}
  {trace : List (Client FitMemory × Request)} {requests : List Request}
  {outstanding : List Allocation}

namespace Mirrors

theorem clearFreed (mirrors : Mirrors base size background large small listed)
    (fits : p + n ≤ size) :
    Lockstep (fun large small => Mirrors base size background large small listed)
      (fitClearFreed large (base + p) n) (fitClearFreed small p n) := by
  induction n generalizing large small p with
  | zero => exact .ok mirrors
  | succ n ih =>
      have inside : p < size := by omega
      have marks := mirrors.marks p inside
      have tame := mirrors.confined.tame p (mem_points_zero.mpr inside)
      simp only [fitClearFreed, marks.flags]
      split
      · refine ih (p := p + 1) (mirrors.modifyPage inside ?_ ?_) (by omega)
        · exact ⟨rfl, .inl rfl, tame.property⟩
        · exact marks.unmark
      · exact .error _

theorem markFree (mirrors : Mirrors base size background large small listed) (inside : p < size)
    (fits : p + n ≤ size) :
    Mirrors base size background (fitMarkFree large (base + p) n) (fitMarkFree small p n) listed := by
  have marked := (mirrors.setProperty inside fits).setNrFree (uint32 (small.nrFree + n))
  unfold fitMarkFree
  simpa only [modifyPage_nrFree, mirrors.nrFree] using marked

end Mirrors

/-- Both lists are threaded alike, and nothing else changes. -/
structure Threaded (base size : Nat) (listed : Set Link) (before large small : Links Link) : Prop where
  placed : Placed (shifted base) listed large small
  outside : ∀ page, page ∉ (⟨base, size⟩ : Extent).points →
    large.entry (.page page) = before.entry (.page page)

theorem fitInsertLoop_lockstep (placed : Placed (shifted base) listed largeLinks smallLinks)
    (apart : ∀ page, page ∉ (⟨base, size⟩ : Extent).points →
      ∀ x ∈ insert (.page p) listed, Link.page page ≠ shifted base x)
    (start : le ∈ listed) (inserts : .page p ∈ listed ∨ listNext smallLinks le ≠ .freeList) :
    Lockstep (Threaded base size (insert (.page p) listed) largeLinks)
      (fitInsertLoop (base + p) fuel largeLinks (shifted base le))
      (fitInsertLoop p fuel smallLinks le) := by
  induction fuel generalizing largeLinks smallLinks le listed with
  | zero => exact .error _
  | succ fuel ih =>
      have member := placed.closed.next le start
      simp only [fitInsertLoop, placed.next le start]
      cases next : listNext smallLinks le with
      | freeList =>
          have already := inserts.resolve_right fun notHead => notHead next
          rw [Set.insert_eq_of_mem already]
          exact .ok ⟨placed, fun _ _ => rfl⟩
      | page page =>
          rw [next] at member
          have above : base + p < base + page ↔ p < page := Nat.add_lt_add_iff_left
          have ends : listNext largeLinks (.page (base + page)) = .freeList ↔
              listNext smallLinks (.page page) = .freeList := by
            have follows := placed.next _ member
            rw [shifted] at follows
            rw [follows]
            cases listNext smallLinks (.page page) with
            | freeList => simp [shifted]
            | page index => simp [shifted]
          simp only [shifted, above, ends]
          split
          · exact .ok ⟨placed.addBefore (shifted_injective base) member,
              fun page outside => placed.addBefore_outside (apart page outside) member⟩
          · split
            · have added : Placed (shifted base) (insert (.page p) listed)
                  (listAdd largeLinks (.page (base + page)) (.page (base + p)))
                  (listAdd smallLinks (.page page) (.page p)) :=
                placed.add (shifted_injective base) member
              have again := ih added (by rwa [Set.insert_idem]) (.inr member) (.inl (.inl rfl))
              rw [Set.insert_idem] at again
              refine again.mono fun large small threaded => ⟨threaded.placed, fun page outside => ?_⟩
              exact (threaded.outside page outside).trans
                (placed.add_outside (apart page outside) member)
            · rename_i more
              exact ih placed apart member (.inr more)

namespace Mirrors

theorem listEmpty (mirrors : Mirrors base size background large small listed) :
    listEmpty large.links .freeList = listEmpty small.links .freeList := by
  have next := mirrors.placed.next _ mirrors.confined.head
  rw [shifted] at next
  rw [Libs.listEmpty, Libs.listEmpty, next]
  cases listNext small.links .freeList with
  | freeList => rfl
  | page index => simp [shifted]

theorem insert (mirrors : Mirrors base size background large small listed) (inside : p < size)
    (marked : (small.pages p).flags ≠ 0) :
    Lockstep (fun large small => Mirrors base size background large small (insert (.page p) listed))
      (fitInsert large (base + p) fuel) (fitInsert small p fuel) := by
  have head := mirrors.confined.head
  have apart := fun page => @ne_shifted_insert _ _ _ page _ _ _ _ mirrors inside
  unfold fitInsert
  rw [mirrors.listEmpty]
  split
  · exact .ok (mirrors.linked inside marked (mirrors.placed.add (shifted_injective base) head)
      fun page outside => mirrors.placed.add_outside (apart page outside) head)
  · rename_i nonempty
    have notHead : listNext small.links .freeList ≠ .freeList := by
      simpa [Libs.listEmpty] using nonempty
    refine (fitInsertLoop_lockstep mirrors.placed apart head (.inr notHead)).bind
      fun largeLinks smallLinks threaded => .ok ?_
    exact mirrors.linked inside marked threaded.placed threaded.outside

theorem free (mirrors : Mirrors base size background large small listed) (fits : p + n ≤ size) :
    Lockstep (Mirrored base size background) (fitFreePages large (base + p) n fuel)
      (fitFreePages small p n fuel) := by
  unfold fitFreePages
  split
  · exact .error _
  · have inside : p < size := by omega
    refine (mirrors.clearFreed fits).bind fun large small cleared => ?_
    have marked := cleared.markFree inside fits
    have tame := cleared.confined.tame p (mem_points_zero.mpr inside)
    have isMarked : ((fitMarkFree small p n).pages p).flags ≠ 0 := by
      simp [fitMarkFree, setPageProperty_tame tame.flags]
    refine (marked.insert inside isMarked).bind fun large small inserted => ?_
    obtain ⟨merged, same, member⟩ := inserted.mergePrev (.inl rfl)
    have final := merged.mergeNext member
    rw [← same] at final
    exact .ok ⟨_, final⟩

end Mirrors

/-! The searches find the same block. -/

theorem defaultSearchLoop_lockstep (mirrors : Mirrors base size background large small listed)
    (start : le ∈ listed) :
    Lockstep (fun a b => a = b.map (base + ·)) (defaultSearchLoop large n fuel (shifted base le))
      (defaultSearchLoop small n fuel le) := by
  induction fuel generalizing le with
  | zero => exact .error _
  | succ fuel ih =>
      have member := mirrors.placed.closed.next le start
      simp only [defaultSearchLoop, mirrors.placed.next le start]
      cases next : listNext small.links le with
      | freeList => exact .ok rfl
      | page page =>
          rw [next] at member
          simp only [shifted, mirrors.property member]
          split
          · exact .ok rfl
          · exact ih member

theorem bestFitSearchLoop_lockstep (mirrors : Mirrors base size background large small listed)
    (start : le ∈ listed) (best : Option Nat) (minSize : Nat) :
    Lockstep (fun a b => a = b.map (base + ·))
      (bestFitSearchLoop large n fuel (shifted base le) (best.map (base + ·)) minSize)
      (bestFitSearchLoop small n fuel le best minSize) := by
  induction fuel generalizing le best minSize with
  | zero => exact .error _
  | succ fuel ih =>
      have member := mirrors.placed.closed.next le start
      simp only [bestFitSearchLoop, mirrors.placed.next le start]
      cases next : listNext small.links le with
      | freeList => exact .ok rfl
      | page page =>
          rw [next] at member
          simp only [shifted, mirrors.property member]
          split
          · exact ih member (some page) _
          · exact ih member best minSize

theorem Mirrors.search_lockstep (mirrors : Mirrors base size background large small listed) :
    Lockstep (fun a b => a = b.map (base + ·)) (manager.search large n fuel)
      (manager.search small n fuel) := by
  cases manager with
  | firstFit => exact defaultSearchLoop_lockstep mirrors mirrors.confined.head
  | bestFit =>
      show Lockstep _ (bestFitSearch large n fuel) (bestFitSearch small n fuel)
      rw [bestFitSearch, bestFitSearch, mirrors.nrFree]
      exact bestFitSearchLoop_lockstep mirrors mirrors.confined.head none _

/-- Two answers to a request for `n` pages. -/
structure Granted (base size n : Nat) (background : FitMemory) (large small : Option Nat × FitMemory) :
    Prop where
  page : large.1 = small.1.map (base + ·)
  fits : ∀ page, small.1 = some page → page + n ≤ size
  memory : Mirrored base size background large.2 small.2

theorem Mirrors.alloc (mirrors : Mirrors base size background large small listed) :
    Lockstep (Granted base size n background) (manager.pmm.allocPages large n fuel)
      (manager.pmm.allocPages small n fuel) := by
  rw [FitManager.pmm_allocPages]
  unfold fitAllocPages
  rw [mirrors.nrFree]
  split
  · exact .error _
  · split
    · exact .ok ⟨rfl, by simp, listed, mirrors⟩
    · refine mirrors.search_lockstep.traced.bind fun answer chosen found => ?_
      obtain ⟨rfl, found⟩ := found
      cases chosen with
      | none => exact .ok ⟨rfl, by simp, listed, mirrors⟩
      | some page =>
          obtain ⟨member, enough⟩ :=
            FitManager.search_candidate mirrors.placed.closed mirrors.confined.head found
          refine .ok ⟨rfl, fun found same => ?_, mirrors.take member⟩
          cases same
          exact (Nat.add_le_add_left enough page).trans (mirrors.reach member)

/-! Runs. -/

def shiftBlock (base : Nat) (block : Allocation) : Allocation := ⟨base + block.page, block.count⟩

def shiftRequest (base : Nat) : Request → Request
  | .alloc count => .alloc count
  | .free block => .free (shiftBlock base block)

theorem shiftBlock_injective (base : Nat) : Function.Injective (shiftBlock base) := by
  intro first second same
  obtain ⟨page, count⟩ := first
  obtain ⟨other, countOther⟩ := second
  simp only [shiftBlock, Allocation.mk.injEq, Nat.add_left_cancel_iff] at same
  rw [same.1, same.2]

theorem shiftRequest_injective (base : Nat) : Function.Injective (shiftRequest base) := by
  intro first second same
  cases first with
  | alloc count =>
      cases second with
      | alloc other => exact same
      | free block => cases same
  | free block =>
      cases second with
      | alloc count => cases same
      | free other => rw [shiftBlock_injective base (Request.free.inj same)]

structure MirroredClient (base size : Nat) (background : FitMemory)
    (large small : Client FitMemory) : Prop where
  memory : Mirrored base size background large.memory small.memory
  outstanding : large.outstanding = small.outstanding.map (shiftBlock base)
  fits : ∀ block ∈ small.outstanding, block.page + block.count ≤ size

theorem fitInitMemmap_mirrors (positive : 0 < n)
    (done : fitInitMemmap (fitInit memory) base n fuel = .ok large)
    (doneSmall : fitInitMemmap (fitInit memoryOther) 0 n fuel = .ok small) :
    Mirrored base n large large small := by
  unfold fitInitMemmap at done doneSmall
  rw [if_neg positive.ne'] at done doneSmall
  obtain ⟨cleared, clearing, inserting⟩ := bind_eq_ok.mp done
  obtain ⟨clearedSmall, clearingSmall, insertingSmall⟩ := bind_eq_ok.mp doneSmall
  obtain ⟨links, nrFree, pages⟩ := fitClearReserved_ok clearing
  obtain ⟨linksSmall, nrFreeSmall, pagesSmall⟩ := fitClearReserved_ok clearingSmall
  have blank : Mirrors base n cleared cleared clearedSmall {.freeList} := by
    apply Mirrors.blank
    · rw [links]
      exact listInit_isList memory.links .freeList
    · rw [linksSmall]
      exact listInit_isList memoryOther.links .freeList
    · intro index bound
      rw [pages, if_pos (by omega)]
    · intro index bound
      rw [pagesSmall, if_pos (by omega)]
    · rw [nrFree, nrFreeSmall]
      rfl
  have marked := blank.markFree positive (Nat.zero_add n).le
  have tame := blank.confined.tame 0 (mem_points_zero.mpr positive)
  have isMarked : ((fitMarkFree clearedSmall 0 n).pages 0).flags ≠ 0 := by
    simp [fitMarkFree, setPageProperty_tame tame.flags]
  have threaded := @Mirrors.insert _ _ _ fuel _ _ _ _ marked positive isMarked
  rw [Nat.add_zero, inserting, insertingSmall] at threaded
  cases threaded with
  | ok mirrors => exact ⟨_, { mirrors with outside := fun _ _ => ⟨rfl, rfl⟩ }⟩

theorem booted_mirrors (booted : Booted manager.pmm memory base n client)
    (bootedSmall : Booted manager.pmm memoryOther 0 n clientOther) :
    MirroredClient base n client.memory client clientOther := by
  have positive := booted_positive booted
  obtain ⟨result, none⟩ := booted
  obtain ⟨resultSmall, noneSmall⟩ := bootedSmall
  rw [FitManager.pmm_initMemmap, FitManager.pmm_init] at result resultSmall
  obtain ⟨enough, done⟩ := result
  obtain ⟨enoughSmall, doneSmall⟩ := resultSmall
  refine ⟨?_, by simp [none, noneSmall], by simp [noneSmall]⟩
  exact fitInitMemmap_mirrors positive (done _ (Nat.le_max_left enough enoughSmall))
    (doneSmall _ (Nat.le_max_right enough enoughSmall))

namespace MirroredClient

/-- What the region at the start does, the other one does too. -/
theorem step (mirrored : MirroredClient base size background largeClient smallClient)
    (step : Step manager.pmm smallClient request next) :
    ∃ nextLarge, Step manager.pmm largeClient (shiftRequest base request) nextLarge ∧
      MirroredClient base size background nextLarge next := by
  obtain ⟨memoryLarge, outstandingLarge⟩ := largeClient
  obtain ⟨listed, mirrors⟩ := mirrored.memory
  have blocks := mirrored.outstanding
  simp only at mirrors blocks
  subst blocks
  cases step with
  | @allocated memory after outstanding count page result =>
      obtain ⟨answer, returns, granted⟩ := result.follow
        (manager.steady.allocPages memoryLarge count) fun fuel => mirrors.alloc
      obtain ⟨found, after⟩ := answer
      obtain ⟨rfl, fits, memory⟩ := granted
      refine ⟨_, .allocated returns, memory, rfl, fun block member => ?_⟩
      rcases List.mem_cons.mp member with rfl | old
      · exact fits _ rfl
      · exact mirrored.fits block old
  | @refused memory after outstanding count result =>
      obtain ⟨answer, returns, granted⟩ := result.follow
        (manager.steady.allocPages memoryLarge count) fun fuel => mirrors.alloc
      obtain ⟨found, after⟩ := answer
      obtain ⟨rfl, fits, memory⟩ := granted
      exact ⟨_, .refused returns, memory, rfl, mirrored.fits⟩
  | @freed memory after outstanding block member result =>
      rw [FitManager.pmm_freePages] at result
      obtain ⟨after, returns, memory⟩ := result.follow
        (fitFreePages_steady memoryLarge (base + block.page) block.count)
        fun fuel => mirrors.free (mirrored.fits block member)
      rw [← manager.pmm_freePages] at returns
      have moved : shiftBlock base block ∈ outstanding.map (shiftBlock base) :=
        List.mem_map_of_mem member
      refine ⟨_, .freed moved returns, memory, ?_, fun other kept =>
        mirrored.fits other (List.mem_of_mem_erase kept)⟩
      exact (List.map_erase (shiftBlock_injective base) outstanding).symm

/-- What the other region does, the one at the start does too. -/
theorem step_back (mirrored : MirroredClient base size background largeClient smallClient)
    (step : Step manager.pmm largeClient request next) :
    ∃ own nextSmall, request = shiftRequest base own ∧ Step manager.pmm smallClient own nextSmall ∧
      MirroredClient base size background next nextSmall := by
  obtain ⟨memorySmall, outstandingSmall⟩ := smallClient
  obtain ⟨memoryLarge, outstandingLarge⟩ := largeClient
  obtain ⟨listed, mirrors⟩ := mirrored.memory
  have blocks : outstandingLarge = outstandingSmall.map (shiftBlock base) := mirrored.outstanding
  have answers {count : Nat} {answer : Option Nat × FitMemory}
      (result : Returns (manager.pmm.allocPages memoryLarge count) answer) :=
    result.follow (manager.steady.allocPages memorySmall count) fun fuel => mirrors.alloc.swap
  cases step with
  | @allocated _ _ _ count _ result =>
      obtain ⟨⟨found, after⟩, returns, page, fits, memory⟩ := answers result
      obtain ⟨page, rfl, rfl⟩ := Option.map_eq_some_iff.mp page.symm
      refine ⟨.alloc count, _, rfl, .allocated returns, memory, by simp [blocks, shiftBlock],
        fun block member => ?_⟩
      rcases List.mem_cons.mp member with rfl | old
      · exact fits _ rfl
      · exact mirrored.fits block old
  | @refused _ _ _ count result =>
      obtain ⟨⟨found, after⟩, returns, page, fits, memory⟩ := answers result
      obtain rfl : found = none := Option.map_eq_none_iff.mp page.symm
      exact ⟨.alloc count, _, rfl, .refused returns, memory, blocks, mirrored.fits⟩
  | freed member result =>
      subst blocks
      obtain ⟨block, own, rfl⟩ := List.mem_map.mp member
      rw [FitManager.pmm_freePages] at result
      obtain ⟨after, returns, memory⟩ := result.follow
        (fitFreePages_steady memorySmall block.page block.count)
        fun fuel => (mirrors.free (mirrored.fits block own)).swap
      rw [← manager.pmm_freePages] at returns
      refine ⟨.free block, _, rfl, .freed own returns, memory, ?_, fun other kept =>
        mirrored.fits other (List.mem_of_mem_erase kept)⟩
      exact (List.map_erase (shiftBlock_injective base) outstandingSmall).symm

theorem run_back (mirrored : MirroredClient base size background largeClient smallClient)
    (run : Run (Step manager.pmm) largeClient trace last) :
    ∃ small, MirroredClient base size background last small := by
  have preserved {state after : Client FitMemory} {request : Request}
      (mirrored : ∃ small, MirroredClient base size background state small) (_ : True)
      (step : Step manager.pmm state request after) :
      ∃ small, MirroredClient base size background after small := by
    obtain ⟨small, mirrored⟩ := mirrored
    obtain ⟨_, nextSmall, _, _, mirroredNext⟩ := mirrored.step_back step
    exact ⟨nextSmall, mirroredNext⟩
  exact (run.invariant _ preserved ⟨_, mirrored⟩ fun _ _ => trivial).2

end MirroredClient

/-- A run serves these requests, with these blocks outstanding at the end. -/
def Serves (manager : FitManager) (client : Client FitMemory) (requests : List Request)
    (outstanding : List Allocation) : Prop :=
  ∃ trace last, Run (Step manager.pmm) client trace last ∧ trace.map Prod.snd = requests ∧
    last.outstanding = outstanding

theorem serves_nil : Serves manager client [] outstanding ↔ client.outstanding = outstanding := by
  constructor
  · intro serves
    obtain ⟨trace, last, run, labels, ends⟩ := serves
    obtain rfl := List.map_eq_nil_iff.mp labels
    cases run
    exact ends
  · intro ends
    exact ⟨[], client, .done client, rfl, ends⟩

theorem serves_cons : Serves manager client (request :: requests) outstanding ↔
    ∃ next, Step manager.pmm client request next ∧ Serves manager next requests outstanding := by
  constructor
  · intro serves
    obtain ⟨trace, last, run, labels, ends⟩ := serves
    cases run with
    | done => cases labels
    | step first rest =>
        obtain ⟨rfl, others⟩ := List.cons.inj labels
        exact ⟨_, first, _, last, rest, others, ends⟩
  · intro serves
    obtain ⟨next, first, trace, last, rest, labels, ends⟩ := serves
    exact ⟨_, last, .step first rest, by simp [labels], ends⟩

theorem MirroredClient.serves_shifted
    (mirrored : MirroredClient base size background largeClient smallClient) :
    Serves manager largeClient (requests.map (shiftRequest base))
        (outstanding.map (shiftBlock base)) ↔
      Serves manager smallClient requests outstanding := by
  induction requests generalizing largeClient smallClient with
  | nil =>
      rw [List.map_nil, serves_nil, serves_nil, mirrored.outstanding]
      exact (List.map_injective_iff.mpr (shiftBlock_injective base)).eq_iff
  | cons request requests ih =>
      rw [List.map_cons, serves_cons, serves_cons]
      constructor
      · intro serves
        obtain ⟨next, step, rest⟩ := serves
        obtain ⟨own, nextSmall, same, step, mirroredNext⟩ := mirrored.step_back step
        rw [← shiftRequest_injective base same] at step
        exact ⟨nextSmall, step, (ih mirroredNext).mp rest⟩
      · intro serves
        obtain ⟨next, step, rest⟩ := serves
        obtain ⟨nextLarge, step, mirroredNext⟩ := mirrored.step step
        exact ⟨nextLarge, step, (ih mirroredNext).mpr rest⟩

theorem fitClearReserved_returns
    (reserved : ∀ page, p ≤ page → page < p + n → PageReserved (memory.pages page).flags) :
    ∃ after, fitClearReserved memory p n = .ok after := by
  induction n generalizing memory p with
  | zero => exact ⟨memory, rfl⟩
  | succ n ih =>
      rw [fitClearReserved, if_pos (reserved p le_rfl (by omega))]
      refine ih fun page low high => ?_
      rw [modifyPage_pages, if_neg (by omega)]
      exact reserved page (by omega) (by omega)

theorem bootMemory_booted (manager : FitManager) (positive : 0 < n) :
    ∃ client, Booted manager.pmm bootMemory base n client := by
  obtain ⟨cleared, clearing⟩ := @fitClearReserved_returns base n (fitInit bootMemory)
    fun page _ _ => pageReserved_set 0
  obtain ⟨links, _, _⟩ := fitClearReserved_ok clearing
  have empty : listEmpty (fitMarkFree cleared base n).links .freeList = true := by
    show listEmpty cleared.links .freeList = true
    rw [links]
    exact (listEmpty_iff (listInit_isList bootMemory.links .freeList)).mpr rfl
  have done : Returns (fitInitMemmap (fitInit bootMemory) base n)
      { fitMarkFree cleared base n with
        links := listAdd (fitMarkFree cleared base n).links .freeList (.page base) } := by
    apply Returns.of_constant
    intro fuel
    rw [fitInitMemmap, if_neg positive.ne', clearing, ok_bind, fitInsert, if_pos empty]
  rw [← manager.pmm_initMemmap, ← manager.pmm_init] at done
  exact ⟨⟨_, []⟩, done, rfl⟩

/-- Two regions of one size serve the same requests with the same answers, each counted from its
start, in every run and also where frees damage the list. -/
theorem serves_anywhere (booted : Booted manager.pmm memory base n client)
    (bootedOther : Booted manager.pmm memoryOther baseOther n clientOther) (requests : List Request)
    (outstanding : List Allocation) :
    Serves manager client (requests.map (shiftRequest base)) (outstanding.map (shiftBlock base)) ↔
      Serves manager clientOther (requests.map (shiftRequest baseOther))
        (outstanding.map (shiftBlock baseOther)) := by
  obtain ⟨small, bootedSmall⟩ := @bootMemory_booted 0 n manager (booted_positive booted)
  rw [(booted_mirrors booted bootedSmall).serves_shifted,
    (booted_mirrors bootedOther bootedSmall).serves_shifted]

/-- A run on three pages that damages the list. -/
theorem damaging_run (manager : FitManager) : ∃ client, Booted manager.pmm bootMemory 0 3 client ∧
    Serves manager client
      [.alloc 1, .alloc 1, .alloc 1, .free ⟨0, 1⟩, .free ⟨2, 1⟩, .free ⟨1, 1⟩] [] := by
  have computed : (script manager.pmm 9 (fun _ _ => true) bootMemory 0 3
      [.alloc 1, .alloc 1, .alloc 1, .free ⟨0, 1⟩, .free ⟨2, 1⟩, .free ⟨1, 1⟩]).toOption.any
        (fun client => decide (client.outstanding = [])) = true := by
    cases manager with
    | firstFit => decide +kernel
    | bestFit => decide +kernel
  obtain ⟨client, trace, last, booted, run, labels, _, ends⟩ := script_run manager.steady _ computed
  exact ⟨client, booted, trace, last, run, labels, of_decide_eq_true ends⟩

theorem serves_anywhere_seven : ∃ client, Booted defaultPmmManager bootMemory 7 3 client ∧
    Serves .firstFit client
      [.alloc 1, .alloc 1, .alloc 1, .free ⟨7, 1⟩, .free ⟨9, 1⟩, .free ⟨8, 1⟩] [] := by
  obtain ⟨clientOther, bootedOther, serves⟩ := damaging_run .firstFit
  obtain ⟨client, booted⟩ := @bootMemory_booted 7 3 .firstFit (by decide)
  have moved := serves_anywhere booted bootedOther
    [.alloc 1, .alloc 1, .alloc 1, .free ⟨0, 1⟩, .free ⟨2, 1⟩, .free ⟨1, 1⟩] []
  exact ⟨client, booted, moved.mpr serves⟩

/-- No call changes a descriptor or a list entry that is not of the region. -/
theorem leaves_rest (booted : Booted manager.pmm memory base n client)
    (run : Run (Step manager.pmm) client trace last)
    (outside : page ∉ (⟨base, n⟩ : Extent).points) :
    last.memory.pages page = client.memory.pages page ∧
      last.memory.links.entry (.page page) = client.memory.links.entry (.page page) := by
  obtain ⟨small, bootedSmall⟩ := @bootMemory_booted 0 n manager (booted_positive booted)
  obtain ⟨smallLast, mirrored⟩ := (booted_mirrors booted bootedSmall).run_back run
  obtain ⟨listed, mirrors⟩ := mirrored.memory
  exact (mirrors.outside page outside).symm

theorem leaves_rest_three : ∃ client trace last, Booted bestFitPmmManager bootMemory 0 3 client ∧
    Run (Step bestFitPmmManager) client trace last ∧
    trace.map Prod.snd =
      [.alloc 1, .alloc 1, .alloc 1, .free ⟨0, 1⟩, .free ⟨2, 1⟩, .free ⟨1, 1⟩] ∧
    last.memory.pages 3 = client.memory.pages 3 := by
  obtain ⟨client, booted, trace, last, run, labels, _⟩ := damaging_run .bestFit
  exact ⟨client, trace, last, booted, run, labels, (leaves_rest booted run (by decide)).1⟩

end Ucore.Mm.Fit
