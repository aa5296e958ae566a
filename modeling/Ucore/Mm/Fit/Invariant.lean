import Ucore.Mm.Fit.Operations
import Ucore.Mm.Fit.Search

namespace Ucore.Mm.Fit

open Ucore.Data Ucore.Libs Extent

/-! What holds of a fit manager and its client as long as no block is freed behind
the last entry of the list. -/

variable {base n count : Nat} {memory after : FitMemory} {client next : Client FitMemory}
  {manager : FitManager} {request : Request} {outstanding : List Allocation}
  {blocks left right : List Extent} {region extent : Extent} {block : Allocation}

abbrev owned (outstanding : List Allocation) : List Extent := outstanding.map Allocation.extent

structure Sound (base n : Nat) (client : Client FitMemory) (blocks : List Extent) : Prop where
  list : FreeList client.memory ⟨base, n⟩ blocks
  gapped : Gapped blocks
  tiles : Tiles (↑blocks + ↑(owned client.outstanding)) ⟨base, uint32 n⟩
  positive : ∀ block ∈ client.outstanding, 0 < block.count
  balance : client.memory.nrFree + total (owned client.outstanding) = uint32 n

/-- The page is on the list, and its `prev` is the page itself. -/
def SelfLinked (memory : FitMemory) (page : Nat) : Prop :=
  ∃ heads : List Nat, Circuit (listNext memory.links) .freeList (heads.map .page) ∧ page ∈ heads ∧
    listPrev memory.links (.page page) = .page page

/-- No list leads back the way it came from such a page. -/
theorem SelfLinked.one_way {page : Nat} {nodes : List Link} (broken : SelfLinked memory page)
    (forth : Circuit (listNext memory.links) .freeList nodes) :
    ¬ Circuit (listPrev memory.links) .freeList nodes.reverse := by
  intro back
  obtain ⟨heads, circuit, member, selfLink⟩ := broken
  rw [← circuit.unique forth] at back
  exact back.next_ne (by simpa using member) selfLink

/-- The request does not free a block above every entry of a nonempty list. -/
def KeepsOrder (client : Client FitMemory) : Request → Prop
  | .alloc _ => True
  | .free block => ∃ heads : List Nat,
      Circuit (listNext client.memory.links) .freeList (heads.map .page) ∧
        (heads = [] ∨ ∃ head ∈ heads, block.page < head)

theorem uint32_lt (value : Nat) : uint32 value < 2 ^ 32 := Nat.mod_lt _ (by decide)

theorem uint32_le (value : Nat) : uint32 value ≤ value := Nat.mod_le _ _

theorem owned_erase (member : block ∈ outstanding) :
    (owned outstanding : Multiset Extent) = block.extent ::ₘ owned (outstanding.erase block) :=
  Multiset.coe_eq_coe.mpr ((List.perm_cons_erase member).map Allocation.extent)

theorem circuit_iff {heads : List Nat} (list : FreeList memory region blocks) :
    Circuit (listNext memory.links) .freeList (heads.map .page) ↔
      heads = blocks.map Extent.start := by
  have stored := list.isList.circuit
  rw [entries_eq] at stored
  constructor
  · intro circuit
    have injective : Function.Injective Link.page := fun _ _ same => Link.page.inj same
    exact List.map_injective_iff.mpr injective (circuit.unique stored)
  · intro same
    rwa [same]

theorem fitTake_nrFree (memory : FitMemory) (page n : Nat) :
    (fitTake memory page n).nrFree = uint32Sub memory.nrFree n := by
  simp only [fitTake, modifyPage_nrFree]
  split <;> rfl

theorem booted_positive (booted : Booted manager.pmm memory base n client) : 0 < n := by
  have result := booted.1
  rw [FitManager.pmm_initMemmap, FitManager.pmm_init] at result
  exact (fitInitMemmap_ok result).1

namespace Sound

theorem within (sound : Sound base n client blocks)
    (member : extent ∈ blocks ++ owned client.outstanding) :
    extent.points ⊆ (⟨base, uint32 n⟩ : Extent).points := by
  apply sound.tiles.packs.subset
  rwa [Multiset.coe_add, Multiset.mem_coe]

theorem bounds (sound : Sound base n client blocks)
    (member : extent ∈ blocks ++ owned client.outstanding) (positive : 0 < extent.size) :
    base ≤ extent.start ∧ extent.start + extent.size ≤ base + uint32 n := by
  have inside := sound.within member
  have first : extent.start ∈ extent.points := mem_points.mpr ⟨le_rfl, by omega⟩
  have last : extent.start + extent.size - 1 ∈ extent.points :=
    mem_points.mpr ⟨by omega, by omega⟩
  have lower := (mem_points.mp (inside first)).1
  have upper := (mem_points.mp (inside last)).2
  simp only at lower upper
  omega

theorem nrFree_eq (sound : Sound base n client blocks) : client.memory.nrFree = total blocks := by
  have all := sound.tiles.total_eq
  rw [total_add] at all
  have balance := sound.balance
  simp only at all
  omega

theorem size_le_nrFree (sound : Sound base n client blocks) (member : extent ∈ blocks) :
    extent.size ≤ client.memory.nrFree := by
  rw [sound.nrFree_eq]
  obtain ⟨others, split⟩ := Multiset.exists_cons_of_mem (Multiset.mem_coe.mpr member)
  rw [split, total_cons]
  omega

theorem initial (booted : Booted manager.pmm memory base n client) (some : uint32 n ≠ 0) :
    Sound base n client [⟨base, uint32 n⟩] := by
  obtain ⟨memory, outstanding⟩ := client
  obtain ⟨result, rfl⟩ := booted
  rw [FitManager.pmm_initMemmap, FitManager.pmm_init] at result
  obtain ⟨_, free, list⟩ := fitInitMemmap_ok result
  refine ⟨list, ⟨?_, by simp⟩, fun point => ?_, by simp, by simpa using free⟩
  · intro block member
    obtain rfl : block = ⟨base, uint32 n⟩ := by simpa using member
    exact Nat.pos_of_ne_zero some
  · simp

theorem allocated {chosen : Extent} (sound : Sound base n ⟨memory, outstanding⟩ (left ++ chosen :: right))
    (positive : 0 < count) (fits : count ≤ chosen.size) :
    Sound base n ⟨fitTake memory chosen.start count, ⟨chosen.start, count⟩ :: outstanding⟩
      (left ++ (remainder chosen count ++ right)) := by
  have small := uint32_lt n
  have listed : chosen ∈ left ++ chosen :: right := mem_middle.mpr (.inl rfl)
  have bound := sound.bounds (List.mem_append_left _ listed) (by omega)
  have enough : chosen.size ≤ memory.nrFree := sound.size_le_nrFree listed
  have balance : memory.nrFree + total (owned outstanding) = uint32 n := sound.balance
  have fresh := sound.gapped.start_ne_inside listed positive
  refine ⟨sound.list.take fresh (by omega), sound.gapped.take, fun point => ?_,
    fun block member => ?_, ?_⟩
  · rw [← sound.tiles point]
    simp only [owned, List.map_cons, cover_add, cover_list_cons, cover_take fits,
      Allocation.extent]
    omega
  · rcases List.mem_cons.mp member with rfl | member
    · exact positive
    · exact sound.positive block member
  · simp only [fitTake_nrFree, owned, List.map_cons, ← Multiset.cons_coe, total_cons,
      uint32Sub_of_le (by omega : memory.nrFree < 2 ^ 32) (fits.trans enough), Allocation.extent]
      at balance ⊢
    omega

theorem place (sound : Sound base n client blocks) (member : block ∈ client.outstanding) :
    ∃ left right, blocks = left ++ right ∧
      (∀ other ∈ left, other.start + other.size ≤ block.page) ∧
      (∀ other ∈ right, block.page + block.count ≤ other.start) := by
  have packs := sound.tiles.packs
  rw [Multiset.coe_add] at packs
  have apart := (List.pairwise_append.mp packs.pairwise).2.2
  have separate : ∀ other ∈ blocks, Disjoint other.points block.extent.points :=
    fun other listed => apart other listed _ (List.mem_map_of_mem member)
  exact sound.gapped.place (sound.positive block member) separate

theorem keepsOrder_iff (sound : Sound base n client (left ++ right))
    (positive : 0 < block.count)
    (below : ∀ other ∈ left, other.start + other.size ≤ block.page)
    (above : ∀ other ∈ right, block.page + block.count ≤ other.start) :
    KeepsOrder client (.free block) ↔ (right = [] → left = []) := by
  simp only [KeepsOrder, circuit_iff sound.list, exists_eq_left]
  constructor
  · intro order empty
    subst empty
    rcases order with none | ⟨head, member, above⟩
    · simpa using none
    · obtain ⟨other, inLeft, rfl⟩ := List.mem_map.mp member
      have lower := below other (by simpa using inLeft)
      omega
  · intro order
    cases right with
    | nil => simp [order rfl]
    | cons other right =>
        have gap := above other (by simp)
        exact .inr ⟨other.start, by simp, by omega⟩

theorem inside (sound : Sound base n client blocks) (member : block ∈ client.outstanding) :
    block.extent.points ⊆ (⟨base, n⟩ : Extent).points := by
  intro point covered
  have managed := sound.within (List.mem_append_right _ (List.mem_map_of_mem member)) covered
  have notMore := uint32_le n
  simp only [mem_points] at managed ⊢
  omega

theorem freed (sound : Sound base n ⟨memory, outstanding⟩ blocks) (member : block ∈ outstanding)
    (order : KeepsOrder ⟨memory, outstanding⟩ (.free block)) :
    ∃ after blocks, Returns (fitFreePages memory block.page block.count) after ∧
      Sound base n ⟨after, outstanding.erase block⟩ blocks := by
  obtain ⟨left, right, rfl, below, above⟩ := sound.place member
  have positive := sound.positive block member
  have place := (sound.keepsOrder_iff positive below above).mp order
  have small := uint32_lt n
  have listed : block.extent ∈ (left ++ right) ++ owned outstanding :=
    List.mem_append_right _ (List.mem_map_of_mem member)
  have within : ∀ other ∈ left ++ block.extent :: right,
      base ≤ other.start ∧ other.start + other.size < base + 2 ^ 32 := by
    intro other member
    rcases mem_middle.mp member with rfl | kept
    · have bound := sound.bounds listed positive
      omega
    · have bound := sound.bounds (List.mem_append_left _ kept) (sound.gapped.positive other kept)
      omega
  obtain ⟨after, returns, free, list⟩ :=
    sound.list.free positive (sound.inside member) sound.gapped below above place within
  have balance : memory.nrFree + total (owned outstanding) = uint32 n := sound.balance
  rw [owned_erase member, total_cons] at balance
  refine ⟨after, _, returns, list, sound.gapped.release positive below above, fun point => ?_,
    fun other kept => sound.positive other (List.mem_of_mem_erase kept), ?_⟩
  · rw [← sound.tiles point]
    simp only [cover_add, cover_release, owned_erase member, cover_cons]
    omega
  · have fits : memory.nrFree + block.extent.size < 2 ^ 32 := by omega
    rw [free, uint32_of_lt fits]
    simp only
    omega

/-- Freeing a block behind the last entry returns, and breaks the list. -/
theorem spoiled (sound : Sound base n ⟨memory, outstanding⟩ blocks) (member : block ∈ outstanding)
    (disorder : ¬ KeepsOrder ⟨memory, outstanding⟩ (.free block)) :
    ∃ after, Returns (fitFreePages memory block.page block.count) after ∧
      SelfLinked after block.page := by
  obtain ⟨left, right, rfl, below, above⟩ := sound.place member
  have positive := sound.positive block member
  have small := uint32_lt n
  have bound := sound.bounds (List.mem_append_right _ (List.mem_map_of_mem member)) positive
  simp only [sound.keepsOrder_iff positive below above, Classical.not_imp] at disorder
  obtain ⟨rfl, nonempty⟩ := disorder
  obtain ⟨front, last, rfl⟩ := (List.eq_nil_or_concat left).resolve_left nonempty
  rw [List.concat_eq_append, List.append_nil] at sound
  have lower : ∀ other ∈ front ++ [last], other.start < block.extent.start := by
    intro other listed
    have gap := below other (by simpa using listed)
    have size := sound.gapped.positive other listed
    simp only [Allocation.extent]
    omega
  have fits : block.extent.size < 2 ^ 32 := by omega
  obtain ⟨after, returns, circuit, selfLink⟩ :=
    sound.list.free_last positive fits (sound.inside member) lower
  rw [entries_eq] at circuit
  exact ⟨after, returns, _, circuit, by simp [Allocation.extent], selfLink⟩

theorem step (sound : Sound base n client blocks) (order : KeepsOrder client request)
    (step : Step manager.pmm client request next) : ∃ blocks, Sound base n next blocks := by
  cases step with
  | @allocated memory after outstanding count page result =>
      have positive := manager.allocPages_positive result
      rcases manager.allocPages_cases sound.list positive with ⟨refused, _⟩ | taken
      · cases refused.unique result
      · obtain ⟨left, chosen, right, rfl, fits, returns⟩ := taken
        cases returns.unique result
        exact ⟨_, sound.allocated positive fits⟩
  | @refused memory after outstanding count result =>
      rcases manager.allocPages_cases sound.list (manager.allocPages_positive result) with
        ⟨refused, _⟩ | taken
      · cases refused.unique result
        exact ⟨blocks, sound⟩
      · obtain ⟨left, chosen, right, _, _, returns⟩ := taken
        cases returns.unique result
  | @freed memory after outstanding block member result =>
      obtain ⟨after, blocks, returns, sound⟩ := sound.freed member order
      rw [FitManager.pmm_freePages] at result
      cases returns.unique result
      exact ⟨blocks, sound⟩

end Sound

/-- A run that keeps the order passes through sound states only. -/
theorem sound_run {trace : List (Client FitMemory × Request)} {last : Client FitMemory}
    (some : uint32 n ≠ 0) (booted : Booted manager.pmm memory base n client)
    (run : Run (Step manager.pmm) client trace last)
    (order : ∀ taken ∈ trace, KeepsOrder taken.1 taken.2) :
    (∀ taken ∈ trace, ∃ blocks, Sound base n taken.1 blocks) ∧ ∃ blocks, Sound base n last blocks := by
  have initial : ∃ blocks, Sound base n client blocks := ⟨_, Sound.initial booted some⟩
  apply run.invariant (∃ blocks, Sound base n · blocks) _ initial order
  intro client request next sound order step
  obtain ⟨blocks, sound⟩ := sound
  exact sound.step order step

end Ucore.Mm.Fit
