import Ucore.Mm.KernelHeap.Calls
import Ucore.Mm.Slub.Service

namespace Ucore.Mm.Slub

open Ucore.Data Extent

/-! The object allocator and other users of one page allocator do not get in each other's way. -/

variable {σ : Type} {manager : PmmManager σ} {region : Extent} {service : PageService manager region}
  {pages later : σ} {heap after : KernelHeap σ} {client next last : HeapClient σ}
  {outstanding direct : List Allocation} {live : List Object} {frames : List Extent}
  {request : HeapRequest} {trace : List (HeapClient σ × HeapRequest)} {slabs more : Nat → List Nat}
  {use uses : Nat → Option Use} {size ptr n place : Nat} {answer : Option Nat} {block : Allocation}
  {object : Object}

/-- The place is a byte of the pages of the block. -/
def InPages (block : Allocation) (place : Nat) : Prop :=
  kva block.page ≤ place ∧ place < kva block.page + block.count * PGSIZE

/-- Every page that is out belongs to the object allocator or to somebody else, and the object
allocator is sound. -/
structure HeapSound (service : PageService manager region) (client : HeapClient σ)
    (slabs : Nat → List Nat) (use : Nat → Option Use) : Prop where
  owners : ∃ outstanding, outstanding.Perm (client.direct ++ slubBlocks client.heap.slub) ∧
    service.Inv ⟨client.heap.pages, outstanding⟩
  sound : Sound ⟨client.heap.slub, client.live⟩ slabs use

theorem slubBlocks_extents (slub : SlubMemory) :
    (slubBlocks slub).map Allocation.extent = slub.frames := by
  rw [slubBlocks, List.map_map]
  exact List.map_id _

theorem slubBlocks_congr {slub other : SlubMemory} (same : slub.frames = other.frames) :
    slubBlocks slub = slubBlocks other := by
  rw [slubBlocks, same, slubBlocks]

/-- What the manager answers are pages that nobody has. -/
theorem grants_of_inv (inv : service.Inv ⟨pages, outstanding⟩)
    (mapped : region.start + region.size ≤ mappedPages)
    (asked : Returns (manager.allocPages pages n) (answer, later))
    (held : ∀ frame ∈ frames, frame ∈ outstanding.map Allocation.extent) :
    Grants frames (answering n answer) := by
  intro m page granted
  simp only [answering, Option.ite_none_right_eq_some] at granted
  obtain ⟨rfl, rfl⟩ := granted
  have next := service.preserved inv (service.alloc_allowed _ _) (.allocated asked)
  have packs := service.packs next
  have positive := service.positive next ⟨page, m⟩ (List.mem_cons_self ..)
  simp only at positive
  refine ⟨Nat.pos_of_ne_zero positive, ?_, fun frame isFrame => ?_⟩
  · have inside := packs.subset (Multiset.mem_coe.mpr (List.mem_cons_self ..))
    have end_ : page + m - 1 ∈ (Allocation.extent ⟨page, m⟩).points :=
      mem_points.mpr (by simp only [Allocation.extent]; omega)
    have bound := (mem_points.mp (inside end_)).2
    omega
  · exact (List.rel_of_pairwise_cons packs.pairwise (held frame isFrame)).symm

theorem HeapSound.packs (sound : HeapSound service client slabs use) :
    Packs (client.direct.map Allocation.extent ++ client.heap.slub.frames : List Extent) region := by
  obtain ⟨outstanding, perm, inv⟩ := sound.owners
  have packs := service.packs inv
  have all := perm.map Allocation.extent
  rw [List.map_append, slubBlocks_extents] at all
  rwa [Multiset.coe_eq_coe.mpr all] at packs

theorem HeapSound.grants (sound : HeapSound service ⟨heap, direct, live⟩ slabs use)
    (mapped : region.start + region.size ≤ mappedPages)
    (asked : Returns (manager.allocPages heap.pages n) (answer, later)) :
    Grants heap.slub.frames (answering n answer) := by
  obtain ⟨outstanding, perm, inv⟩ := sound.owners
  refine grants_of_inv inv mapped asked fun frame isFrame => ?_
  rw [(perm.map _).mem_iff, List.map_append, slubBlocks_extents]
  exact List.mem_append_right _ isFrame

theorem kmalloc_outcome (sound : HeapSound service ⟨heap, direct, live⟩ slabs use)
    (mapped : region.start + region.size ≤ mappedPages) (wide : size < 2 ^ 64)
    (result : Returns (kernelKmalloc manager heap size) (ptr, after)) :
    ∃ source more uses, Outcome source heap.slub live slabs use size ptr after.slub more uses ∧
      (∃ outstanding, outstanding.Perm (direct ++ slubBlocks after.slub) ∧
        service.Inv ⟨after.pages, outstanding⟩) ∧
      ∀ place, after.slub.bytes place ≠ heap.slub.bytes place → Within after.slub.frames place := by
  obtain ⟨outstanding, perm, inv⟩ := sound.owners
  obtain ⟨fuel, done⟩ := result.some_fuel
  rcases kernelKmalloc_ok done with ⟨same, isPages, isFrames⟩ | ⟨answer, asked, same, isFrames⟩
  · have result := (kmalloc_steady _ _ _).returns (same fun _ => none)
    have grants : Grants heap.slub.frames fun _ => none := fun n page granted => by cases granted
    obtain ⟨more, uses, outcome⟩ := Outcome.of_returns sound.sound wide grants result
    refine ⟨_, more, uses, outcome, ⟨outstanding, ?_, isPages ▸ inv⟩, fun place changed =>
      sound.sound.kmalloc_within grants result changed⟩
    rw [slubBlocks_congr isFrames]
    exact perm
  · have result := (kmalloc_steady _ _ _).returns same
    have asked := (service.steady.allocPages _ _).returns asked
    have grants := sound.grants mapped asked
    obtain ⟨more, uses, outcome⟩ := Outcome.of_returns sound.sound wide grants result
    refine ⟨_, more, uses, outcome, ?_, fun place changed =>
      sound.sound.kmalloc_within grants result changed⟩
    cases answer with
    | none =>
        refine ⟨outstanding, ?_, service.preserved inv (service.alloc_allowed _ _) (.refused asked)⟩
        rw [slubBlocks_congr isFrames]
        exact perm
    | some page =>
        refine ⟨⟨page, neededPages size⟩ :: outstanding, ?_,
          service.preserved inv (service.alloc_allowed _ _) (.allocated asked)⟩
        have blocks :
            slubBlocks after.slub = ⟨page, neededPages size⟩ :: slubBlocks heap.slub := by
          rw [slubBlocks, isFrames]
          rfl
        rw [blocks]
        exact (perm.cons _).trans List.perm_middle.symm

theorem HeapSound.block_apart (sound : HeapSound service client slabs use)
    (member : block ∈ client.direct) (inside : InPages block place) :
    ¬ Within client.heap.slub.frames place := by
  intro within
  obtain ⟨frame, isFrame, f, inFrame, inPage⟩ := within
  have apart := (List.pairwise_append.mp sound.packs.pairwise).2.2 _
    (List.mem_map_of_mem member) frame isFrame
  refine disjoint_iff.mp apart f ?_ inFrame
  obtain ⟨g, low, high, own⟩ := page_block inside.1 inside.2
  rw [page_unique inPage own]
  exact mem_points.mpr ⟨low, high⟩

theorem HeapSound.pages_step {asked : Request} {remaining : List Allocation}
    (sound : HeapSound service ⟨heap, direct, live⟩ slabs use)
    (allowed : service.allowed heap.pages asked)
    (step : Step manager ⟨heap.pages, direct⟩ asked ⟨later, remaining⟩) :
    HeapSound service ⟨{ heap with pages := later }, remaining, live⟩ slabs use := by
  obtain ⟨outstanding, perm, inv⟩ := sound.owners
  refine ⟨?_, sound.sound⟩
  generalize isPages : heap.pages = pages at allowed step inv
  cases step with
  | allocated result =>
      exact ⟨_, perm.cons _, service.preserved inv allowed (.allocated result)⟩
  | refused result =>
      exact ⟨_, perm, service.preserved inv allowed (.refused result)⟩
  | @freed _ _ _ block member result =>
      have listed : block ∈ outstanding := perm.mem_iff.mpr (List.mem_append_left _ member)
      refine ⟨_, ?_, service.preserved inv allowed (.freed listed result)⟩
      have fewer := perm.erase block
      rwa [List.erase_append_left _ member] at fewer

theorem HeapSound.step (sound : HeapSound service client slabs use)
    (mapped : region.start + region.size ≤ mappedPages) (permits : service.permits client request)
    (step : HeapStep manager client request next) : ∃ more uses, HeapSound service next more uses := by
  cases step with
  | pages step => exact ⟨slabs, use, sound.pages_step (permits _ rfl) step⟩
  | @filled pages slub direct live block offset byte member inside =>
      refine ⟨slabs, use, sound.owners, sound.sound.elsewhere fun place within => ?_⟩
      refine Function.update_of_ne (fun here => ?_) _ _
      exact sound.block_apart member ⟨by omega, by omega⟩ within
  | allocated wide result valid =>
      obtain ⟨source, more, uses, outcome, owners, _⟩ := kmalloc_outcome sound mapped wide result
      exact ⟨more, uses, owners, outcome.sound valid⟩
  | refused wide result =>
      obtain ⟨source, more, uses, outcome, owners, _⟩ := kmalloc_outcome sound mapped wide result
      refine ⟨slabs, use, owners, ?_⟩
      rw [(outcome.null rfl).1]
      exact sound.sound
  | freed member =>
      obtain ⟨more, uses, next⟩ := sound.sound.step (.freed member)
      refine ⟨more, uses, ?_, next⟩
      rw [slubBlocks_congr (kfree_frames _ _)]
      exact sound.owners
  | wrote member inside => exact ⟨slabs, use, sound.owners, sound.sound.write member inside⟩

/-- But for its target a step changes bytes of the object allocator's pages only. -/
theorem HeapSound.changes (sound : HeapSound service client slabs use)
    (mapped : region.start + region.size ≤ mappedPages) (step : HeapStep manager client request next)
    (changed : next.heap.slub.bytes place ≠ client.heap.slub.bytes place)
    (unwritten : request.target ≠ some place) : Within next.heap.slub.frames place := by
  cases step with
  | pages step => exact absurd rfl changed
  | filled member inside =>
      refine absurd (Function.update_of_ne (fun here => unwritten ?_) _ _) changed
      rw [here, HeapRequest.target]
  | allocated wide result valid =>
      obtain ⟨_, _, _, _, _, within⟩ := kmalloc_outcome sound mapped wide result
      exact within place changed
  | refused wide result =>
      obtain ⟨_, _, _, _, _, within⟩ := kmalloc_outcome sound mapped wide result
      exact within place changed
  | freed member =>
      rw [kfree_frames]
      exact sound.sound.kfree_within member changed
  | wrote member inside =>
      refine absurd (Function.update_of_ne (fun here => unwritten ?_) _ _) changed
      rw [here, HeapRequest.target]

/-! Runs. -/

/-- No byte has two owners among the live objects and the blocks that others hold, and all of them
lie in the pages of the region. -/
structure Separate (region : Extent) (client : HeapClient σ) : Prop where
  objects : client.live.Pairwise fun first second =>
    ∀ place, InRoom first place → ¬ InRoom second place
  blocks : client.direct.Pairwise fun first second =>
    ∀ place, InPages first place → ¬ InPages second place
  across : ∀ object ∈ client.live, ∀ block ∈ client.direct,
    ∀ place, InRoom object place → ¬ InPages block place
  inside : ∀ place, ((∃ object ∈ client.live, InRoom object place) ∨
      ∃ block ∈ client.direct, InPages block place) → ∃ f ∈ region.points, InPage f place

theorem within_region (packs : Packs frames region) (within : Within frames place) :
    ∃ f ∈ region.points, InPage f place := by
  obtain ⟨frame, isFrame, f, inFrame, inPage⟩ := within
  exact ⟨f, packs.subset (Multiset.mem_coe.mpr isFrame) inFrame, inPage⟩

theorem within_block (member : block ∈ direct) (inside : InPages block place) :
    Within (direct.map Allocation.extent) place := by
  obtain ⟨g, low, high, inPage⟩ := page_block inside.1 inside.2
  exact ⟨_, List.mem_map_of_mem member, g, mem_points.mpr ⟨low, high⟩, inPage⟩

theorem HeapSound.separate (sound : HeapSound service client slabs use) : Separate region client := by
  have packs := sound.packs
  obtain ⟨own, _, _⟩ := List.pairwise_append.mp packs.pairwise
  refine ⟨?_, ?_, fun object isLive block member place inRoom inPages => ?_, fun place owned => ?_⟩
  · have distinct := sound.sound.placed.distinct.of_map
    refine distinct.imp_of_mem fun inFirst inSecond different place inside => ?_
    exact sound.sound.placed.apart inFirst inSecond different inside
  · rw [List.pairwise_map] at own
    refine own.imp fun apart place inFirst inSecond => ?_
    obtain ⟨f, low, high, inPage⟩ := page_block inFirst.1 inFirst.2
    obtain ⟨g, lowOther, highOther, other⟩ := page_block inSecond.1 inSecond.2
    cases page_unique inPage other
    exact disjoint_iff.mp apart f (mem_points.mpr ⟨low, high⟩) (mem_points.mpr ⟨lowOther, highOther⟩)
  · exact sound.block_apart member inPages (sound.sound.within_of_live isLive inRoom)
  · refine within_region packs ?_
    rcases owned with ⟨object, isLive, inRoom⟩ | ⟨block, member, inPages⟩
    · obtain ⟨frame, isFrame, found⟩ := sound.sound.within_of_live isLive inRoom
      exact ⟨frame, List.mem_append_right _ isFrame, found⟩
    · obtain ⟨frame, isFrame, found⟩ := within_block member inPages
      exact ⟨frame, List.mem_append_left _ isFrame, found⟩

theorem heap_booted_sound {memory : σ} {base n : Nat} (booted : HeapBooted manager memory base n client)
    (initial : ∀ {pages}, Booted manager memory base n ⟨pages, []⟩ → service.Inv ⟨pages, []⟩) :
    HeapSound service client (fun _ => []) (fun _ => none) := by
  obtain ⟨⟨pages, slub⟩, direct, live⟩ := client
  obtain ⟨started, rfl, rfl, memory, none, rfl⟩ := booted
  refine ⟨⟨[], ?_, initial started⟩, booted_sound ⟨memory, rfl⟩⟩
  have frames : (slubInit memory).frames = [] := none
  rw [slubBlocks, frames]
  exact List.Perm.refl _

theorem heap_run (sound : HeapSound service client slabs use)
    (mapped : region.start + region.size ≤ mappedPages)
    (run : Run (HeapStep manager) client trace last)
    (permits : ∀ taken ∈ trace, service.permits taken.1 taken.2) :
    (∀ taken ∈ trace, ∃ slabs use, HeapSound service taken.1 slabs use) ∧
      ∃ slabs use, HeapSound service last slabs use := by
  have preserved {state next : HeapClient σ} {request : HeapRequest}
      (reached : ∃ slabs use, HeapSound service state slabs use)
      (permits : service.permits state request) (step : HeapStep manager state request next) :
      ∃ slabs use, HeapSound service next slabs use := by
    obtain ⟨slabs, use, sound⟩ := reached
    exact sound.step mapped permits step
  exact run.invariant (fun client => ∃ slabs use, HeapSound service client slabs use) preserved
    ⟨slabs, use, sound⟩ permits

/-- What a step leaves alone: the bytes of everybody who keeps what is theirs, but for the target of
a write. -/
def Untouching (client : HeapClient σ) (request : HeapRequest) (next : HeapClient σ) : Prop :=
  ∀ place, request.target ≠ some place →
    ((∃ object ∈ client.live, object ∈ next.live ∧ InRoom object place) ∨
      ∃ block ∈ client.direct, block ∈ next.direct ∧ InPages block place) →
    next.heap.slub.bytes place = client.heap.slub.bytes place

/-- Calls of the object allocator keep off the objects that stay. -/
theorem HeapSound.live_untouched (sound : HeapSound service client slabs use)
    (mapped : region.start + region.size ≤ mappedPages) (step : HeapStep manager client request next)
    (unwritten : request.target ≠ some place) (before : object ∈ client.live)
    (isLive : object ∈ next.live) (inRoom : InRoom object place) :
    next.heap.slub.bytes place = client.heap.slub.bytes place := by
  cases step with
  | pages step => rfl
  | filled member inside =>
      refine Function.update_of_ne (fun here => unwritten ?_) _ _
      rw [here, HeapRequest.target]
  | allocated wide result valid =>
      obtain ⟨_, _, _, outcome, _, _⟩ := kmalloc_outcome sound mapped wide result
      exact outcome.untouched object before place inRoom
  | refused wide result =>
      obtain ⟨_, _, _, outcome, _, _⟩ := kmalloc_outcome sound mapped wide result
      exact outcome.untouched object before place inRoom
  | freed member =>
      exact sound.sound.call_untouched (.freed member) (fun _ _ _ same => by cases same) object before
        isLive place inRoom
  | wrote member inside =>
      refine Function.update_of_ne (fun here => unwritten ?_) _ _
      rw [here, HeapRequest.target]

theorem HeapSound.untouching (sound : HeapSound service client slabs use)
    (mapped : region.start + region.size ≤ mappedPages) (permits : service.permits client request)
    (step : HeapStep manager client request next) : Untouching client request next := by
  intro place unwritten owned
  rcases owned with ⟨object, before, isLive, inRoom⟩ | ⟨block, _, member, inPages⟩
  · exact sound.live_untouched mapped step unwritten before isLive inRoom
  · obtain ⟨_, _, after⟩ := sound.step mapped permits step
    by_contra changed
    exact after.block_apart member inPages (sound.changes mapped step changed unwritten)

end Ucore.Mm.Slub
