import Ucore.Mm.FitPmm
import Ucore.Mm.Fit.Blocks

namespace Ucore.Mm.Fit

open Ucore.Data Ucore.Libs Extent

/-! The memory of a fit manager refines the sequence of its free blocks. -/

abbrev entries (blocks : List Extent) : List Link := blocks.map fun block => .page block.start

/-- The memory stores this free list, and in the region exactly its heads are marked. -/
structure FreeList (memory : FitMemory) (region : Extent) (blocks : List Extent) : Prop where
  isList : IsList memory.links .freeList (entries blocks)
  property : ∀ block ∈ blocks, (memory.pages block.start).property = block.size
  flags : ∀ page ∈ region.points,
    (memory.pages page).flags = if page ∈ blocks.map Extent.start then 2 else 0

variable {memory after : FitMemory} {region block : Extent} {blocks left right : List Extent}
  {links : Links Link} {le : Link} {nodes : List Nat} {base n p : Nat}

@[simp] theorem modifyPage_links (memory : FitMemory) (index : Nat) (change : Page → Page) :
    (memory.modifyPage index change).links = memory.links := rfl

@[simp] theorem modifyPage_nrFree (memory : FitMemory) (index : Nat) (change : Page → Page) :
    (memory.modifyPage index change).nrFree = memory.nrFree := rfl

@[simp] theorem modifyPage_pages (memory : FitMemory) (index page : Nat) (change : Page → Page) :
    (memory.modifyPage index change).pages page =
      if page = index then change (memory.pages index) else memory.pages page := by
  simp [FitMemory.modifyPage, Function.update_apply]

theorem fitClearReserved_ok (done : fitClearReserved memory p n = .ok after) :
    after.links = memory.links ∧ after.nrFree = memory.nrFree ∧
      ∀ page, after.pages page =
        if p ≤ page ∧ page < p + n then { ref := 0, flags := 0, property := 0 }
        else memory.pages page := by
  induction n generalizing memory p with
  | zero =>
      obtain rfl : memory = after := by simpa [fitClearReserved] using done
      exact ⟨rfl, rfl, fun page => by rw [if_neg (by omega)]⟩
  | succ n ih =>
      rw [fitClearReserved] at done
      split at done
      · obtain ⟨links, free, pages⟩ := ih done
        refine ⟨links, free, fun page => ?_⟩
        rw [pages page, modifyPage_pages]
        by_cases first : page = p
        · rw [if_neg (by omega), if_pos first, if_pos (by omega)]
        · rw [if_neg first]
          by_cases later : p + 1 ≤ page ∧ page < p + 1 + n
          · rw [if_pos later, if_pos (by omega)]
          · rw [if_neg later, if_neg (by omega)]
      · cases done

theorem fitClearFreed_ok (clean : ∀ page, p ≤ page → page < p + n → (memory.pages page).flags = 0) :
    ∃ after, fitClearFreed memory p n = .ok after ∧ after.links = memory.links ∧
      after.nrFree = memory.nrFree ∧
      ∀ page, after.pages page =
        if p ≤ page ∧ page < p + n then { memory.pages page with ref := 0, flags := 0 }
        else memory.pages page := by
  induction n generalizing memory p with
  | zero => exact ⟨memory, rfl, rfl, rfl, fun page => by rw [if_neg (by omega)]⟩
  | succ n ih =>
      have unmarked := clean p le_rfl (by omega)
      obtain ⟨after, run, links, free, pages⟩ := @ih
        (memory.modifyPage p fun page => { page with ref := 0, flags := 0 }) (p + 1)
        (fun page low high => by
          rw [modifyPage_pages, if_neg (by omega)]
          exact clean page (by omega) (by omega))
      refine ⟨after, ?_, links, free, fun page => ?_⟩
      · rw [fitClearFreed, unmarked]
        exact run
      · rw [pages page, modifyPage_pages]
        by_cases first : page = p
        · subst first
          rw [if_neg (by omega), if_pos rfl, if_pos (by omega)]
        · rw [if_neg first]
          by_cases later : p + 1 ≤ page ∧ page < p + 1 + n
          · rw [if_pos later, if_pos (by omega)]
          · rw [if_neg later, if_neg (by omega)]

/-! The insertion loop. -/

theorem next_ne_head {entry : Link} (walk : Walk (listNext links) entry (nodes.map .page) .freeList)
    (nonempty : nodes ≠ []) : listNext links entry ≠ .freeList := by
  cases nodes with
  | nil => exact absurd rfl nonempty
  | cons node rest =>
      have first : listNext links entry = .page node := walk.1
      simp [first]

theorem fitInsertLoop_skip {page : Nat} {result : Links Link}
    (walk : Walk (listNext links) le ((page :: nodes).map .page) .freeList) (nonempty : nodes ≠ [])
    (below : page < base)
    (later : Returns (fun fuel => fitInsertLoop base fuel links (.page page)) result) :
    Returns (fun fuel => fitInsertLoop base (fuel + 1) links le) result := by
  have first : listNext links le = .page page := walk.1
  have more : listNext links (.page page) ≠ .freeList := next_ne_head walk.2 nonempty
  simp only [fitInsertLoop, first, if_neg (Nat.lt_asymm below), if_neg more]
  exact later

theorem fitInsertLoop_before {skip rest : List Nat} {above : Nat}
    (walk : Walk (listNext links) le ((skip ++ above :: rest).map .page) .freeList)
    (below : ∀ page ∈ skip, page < base) (greater : base < above) :
    Returns (fun fuel => fitInsertLoop base fuel links le)
      (listAddBefore links (.page above) (.page base)) := by
  apply Returns.round
  induction skip generalizing le with
  | nil =>
      have first : listNext links le = .page above := walk.1
      simp only [fitInsertLoop, first, if_pos greater]
      exact .of_constant fun _ => rfl
  | cons page skip ih =>
      refine fitInsertLoop_skip walk (by simp) (below page (List.mem_cons_self ..)) ?_
      exact .round (ih walk.2 fun page member => below page (List.mem_cons_of_mem _ member))

/-- When every entry is below `base`, the loop inserts `base` behind the last entry, goes
on to `base` itself and inserts it once more, behind itself. -/
theorem fitInsertLoop_last {skip : List Nat} {last : Nat}
    (walk : Walk (listNext links) le ((skip ++ [last]).map .page) .freeList)
    (below : ∀ page ∈ skip ++ [last], page < base) :
    Returns (fun fuel => fitInsertLoop base fuel links le)
      (listAdd (listAdd links (.page last) (.page base)) (.page base) (.page base)) := by
  apply Returns.round
  induction skip generalizing le with
  | nil =>
      have first : listNext links le = .page last := walk.1
      have ends : listNext links (.page last) = .freeList := walk.2
      have lower : last < base := below last (by simp)
      have different : Link.page last ≠ .page base := by
        simp only [ne_eq, Link.page.injEq]
        omega
      simp only [fitInsertLoop, first, if_neg (Nat.lt_asymm lower), ends, if_true]
      apply Returns.round
      apply Returns.round
      apply Returns.of_constant
      intro fuel
      simp [fitInsertLoop, listAdd, listAddAfter, ends, different, Function.update_of_ne]
  | cons page skip ih =>
      refine fitInsertLoop_skip walk (by simp) (below page (List.mem_cons_self ..)) ?_
      exact .round (ih walk.2 fun page member => below page (List.mem_cons_of_mem _ member))

theorem entries_eq (blocks : List Extent) :
    entries blocks = (blocks.map Extent.start).map .page := by
  simp [entries]

theorem fresh_entry (different : ∀ block ∈ blocks, block.start ≠ base) :
    Link.page base ∉ Link.freeList :: entries blocks := by
  intro member
  rcases List.mem_cons.mp member with same | member
  · cases same
  · obtain ⟨block, inside, same⟩ := List.mem_map.mp member
    exact different block inside (Link.page.inj same)

theorem fitInsert_between (memory : FitMemory) (base n : Nat)
    (isList : IsList memory.links .freeList (entries (left ++ right)))
    (below : ∀ other ∈ left, other.start < base) (above : ∀ other ∈ right, base < other.start)
    (place : right = [] → left = []) :
    ∃ links, Returns (fitInsert memory base) { memory with links } ∧
      IsList links .freeList (entries (left ++ ⟨base, n⟩ :: right)) := by
  have fresh : Link.page base ∉ Link.freeList :: entries (left ++ right) := by
    apply fresh_entry
    intro other member
    rcases List.mem_append.mp member with inLeft | inRight
    · exact Nat.ne_of_lt (below other inLeft)
    · exact Nat.ne_of_gt (above other inRight)
  rw [entries, List.map_append] at isList fresh
  rw [entries, List.map_append, List.map_cons]
  cases right with
  | nil =>
      obtain rfl := place rfl
      refine ⟨listAdd memory.links .freeList (.page base), .of_constant fun fuel => ?_, ?_⟩
      · rw [fitInsert, if_pos ((listEmpty_iff isList).mpr (by simp))]
      · exact listAdd_isList isList fresh (by simp)
  | cons next right =>
      refine ⟨listAddBefore memory.links (.page next.start) (.page base), ?_, ?_⟩
      · have walk := isList.circuit.1
        rw [← List.map_append, ← entries, entries_eq, List.map_append, List.map_cons] at walk
        have nonempty : ¬ listEmpty memory.links .freeList = true := by
          rw [listEmpty_iff isList]
          simp
        unfold fitInsert
        simp only [if_neg nonempty]
        refine (fitInsertLoop_before walk ?_ (above next (by simp))).bind (.of_constant fun _ => rfl)
        intro page member
        obtain ⟨other, inLeft, rfl⟩ := List.mem_map.mp member
        exact below other inLeft
      · exact listAddBefore_isList isList fresh (by simp)

/-- Above every block of a nonempty list, the block is inserted with a `prev` link to itself. -/
theorem fitInsert_last (memory : FitMemory) (base n : Nat) {last : Extent}
    (isList : IsList memory.links .freeList (entries (left ++ [last])))
    (below : ∀ other ∈ left ++ [last], other.start < base) :
    ∃ links good, Returns (fitInsert memory base) { memory with links } ∧
      IsList good .freeList (entries (left ++ [last, ⟨base, n⟩])) ∧
      listNext links = listNext good ∧
      listPrev links = Function.update (listPrev good) (.page base) (.page base) := by
  have fresh : Link.page base ∉ Link.freeList :: entries (left ++ [last]) :=
    fresh_entry fun other member => Nat.ne_of_lt (below other member)
  have different : Link.page last.start ≠ .page base := by
    have lower := below last (by simp)
    simp
    omega
  have ends : listNext memory.links (.page last.start) = .freeList := by
    rw [entries, List.map_append, List.map_singleton] at isList
    exact isList.last.1
  have added : IsList (listAdd memory.links (.page last.start) (.page base)) .freeList
      (entries (left ++ [last, ⟨base, n⟩])) := by
    rw [← List.append_nil (entries (left ++ [last]))] at isList fresh
    have position : (Link.freeList :: entries (left ++ [last])).getLast? =
        some (.page last.start) := by
      simp [entries, List.getLast?_cons]
    have extended := listAdd_isList isList fresh position
    simpa [entries] using extended
  refine ⟨listAdd (listAdd memory.links (.page last.start) (.page base)) (.page base) (.page base),
    listAdd memory.links (.page last.start) (.page base), ?_, added, ?_, ?_⟩
  · have walk := isList.circuit.1
    rw [entries_eq, List.map_append, List.map_singleton] at walk
    have nonempty : ¬ listEmpty memory.links .freeList = true := by
      rw [listEmpty_iff isList]
      simp
    unfold fitInsert
    simp only [if_neg nonempty]
    refine (fitInsertLoop_last walk ?_).bind (.of_constant fun _ => rfl)
    intro page member
    rw [← List.map_singleton (f := Extent.start), ← List.map_append] at member
    obtain ⟨other, inside, rfl⟩ := List.mem_map.mp member
    exact below other inside
  · funext entry
    by_cases isBase : entry = .page base
    · simp [listAdd, listAddAfter, isBase]
    · simp [listAdd, listAddAfter, isBase]
  · funext entry
    by_cases isBase : entry = .page base
    · simp [listAdd, listAddAfter, isBase]
    · by_cases isHead : entry = .freeList
      · simp [listAdd, listAddAfter, isHead, ends]
      · simp [listAdd, listAddAfter, isBase, isHead, ends]

end Ucore.Mm.Fit
