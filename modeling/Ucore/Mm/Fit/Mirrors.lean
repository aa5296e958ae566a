import Ucore.Data.Lockstep
import Ucore.Libs.List.Placed
import Ucore.Mm.Fit.Confined

namespace Ucore.Mm.Fit

open Ucore.Data Ucore.Libs Extent

/-! The managers do the same wherever their region lies, whatever surrounds it, and also when the
list is damaged.
-/

/-- Where a link of a region at the start of the array lies when the region starts at `base`. -/
def shifted (base : Nat) : Link → Link
  | .freeList => .freeList
  | .page index => .page (base + index)

/-- What the managers read of two descriptors is the same; they read the size of a block where it is
known.
-/
structure SameMarks (known : Prop) (large small : Page) : Prop where
  flags : large.flags = small.flags
  property : known ∨ small.flags ≠ 0 → large.property = small.property

/-- In the large memory the pages from `base` on are as those of the small memory are, and everything
else is as it is in the background. -/
structure Mirrors (base size : Nat) (background large small : FitMemory) (listed : Set Link) :
    Prop where
  confined : Confined ⟨0, size⟩ small listed
  placed : Placed (shifted base) listed large.links small.links
  marks : ∀ index < size,
    SameMarks (.page index ∈ listed) (large.pages (base + index)) (small.pages index)
  nrFree : large.nrFree = small.nrFree
  outside : ∀ page, page ∉ (⟨base, size⟩ : Extent).points →
    large.links.entry (.page page) = background.links.entry (.page page) ∧
      large.pages page = background.pages page

abbrev Mirrored (base size : Nat) (background large small : FitMemory) : Prop :=
  ∃ listed, Mirrors base size background large small listed

variable {base size p q n index fuel page : Nat} {background large small : FitMemory}
  {listed : Set Link} {le : Link} {largeLinks smallLinks : Links Link} {known : Prop}
  {largePage smallPage : Page}

theorem shifted_injective (base : Nat) : Function.Injective (shifted base) := by
  intro first second same
  cases first with
  | freeList =>
      cases second with
      | freeList => rfl
      | page index => cases same
  | page index =>
      cases second with
      | freeList => cases same
      | page other => rw [Nat.add_left_cancel (Link.page.inj same)]

theorem mem_points_zero : index ∈ (⟨0, size⟩ : Extent).points ↔ index < size := by
  simp [mem_points]

namespace SameMarks

theorem setProperty (marks : SameMarks known largePage smallPage) (size : Nat) :
    SameMarks known { largePage with property := size, flags := SetPageProperty largePage.flags }
      { smallPage with property := size, flags := SetPageProperty smallPage.flags } :=
  ⟨congrArg SetPageProperty marks.flags, fun _ => rfl⟩

theorem clearProperty (marks : SameMarks known largePage smallPage) (isKnown : known) :
    SameMarks known { largePage with flags := ClearPageProperty largePage.flags }
      { smallPage with flags := ClearPageProperty smallPage.flags } :=
  ⟨congrArg ClearPageProperty marks.flags, fun _ => marks.property (.inl isKnown)⟩

theorem unmark (marks : SameMarks known largePage smallPage) :
    SameMarks known { largePage with ref := 0, flags := 0 } { smallPage with ref := 0, flags := 0 } :=
  ⟨rfl, fun looked => marks.property (.inl (looked.resolve_right fun marked => marked rfl))⟩

end SameMarks

namespace Mirrors

/-- An empty list, and pages without marks. -/
theorem blank (isList : IsList large.links .freeList []) (isListSmall : IsList small.links .freeList [])
    (unmarked : ∀ index < size, (large.pages (base + index)).flags = 0)
    (unmarkedSmall : ∀ index < size, small.pages index = { ref := 0, flags := 0, property := 0 })
    (nrFree : large.nrFree = small.nrFree) :
    Mirrors base size large large small {.freeList} where
  confined := by
    have placed : Placed id {Link.freeList} small.links small.links := .empty isListSmall isListSmall
    refine ⟨rfl, placed.closed, fun page member => (nomatch member), fun page inside => ?_⟩
    have bound := mem_points_zero.mp inside
    rw [unmarkedSmall page bound]
    refine ⟨rfl, .inl rfl, ?_⟩
    simp only
    omega
  placed := .empty isList isListSmall
  marks := by
    intro index bound
    rw [unmarkedSmall index bound]
    refine ⟨unmarked index bound, fun looked => ?_⟩
    rcases looked with isListed | isMarked
    · cases isListed
    · exact absurd rfl isMarked
  nrFree := nrFree
  outside := fun _ _ => ⟨rfl, rfl⟩

theorem inside (mirrors : Mirrors base size background large small listed)
    (member : .page index ∈ listed) : index < size :=
  mem_points_zero.mp (mirrors.confined.within index member)

theorem property (mirrors : Mirrors base size background large small listed)
    (member : .page index ∈ listed) :
    (large.pages (base + index)).property = (small.pages index).property :=
  (mirrors.marks index (mirrors.inside member)).property (.inl member)

theorem reach (mirrors : Mirrors base size background large small listed)
    (member : .page index ∈ listed) : index + (small.pages index).property ≤ size := by
  have bound := (mirrors.confined.tame index (mirrors.confined.within index member)).property
  simp only at bound
  omega

theorem ne_shifted (mirrors : Mirrors base size background large small listed)
    (outside : page ∉ (⟨base, size⟩ : Extent).points) :
    ∀ x ∈ listed, Link.page page ≠ shifted base x := by
  intro x member same
  cases x with
  | freeList => cases same
  | page index =>
      have bound := mirrors.inside member
      rw [Link.page.inj same, mem_points] at outside
      simp only at outside
      omega

theorem ne_shifted_insert (mirrors : Mirrors base size background large small listed)
    (inside : index < size) (outside : page ∉ (⟨base, size⟩ : Extent).points) :
    ∀ x ∈ insert (.page index) listed, Link.page page ≠ shifted base x := by
  intro x member same
  rcases member with rfl | old
  · rw [Link.page.inj same, mem_points] at outside
    simp only at outside
    omega
  · exact mirrors.ne_shifted outside x old same

theorem modifyPage (mirrors : Mirrors base size background large small listed)
    {change other : Page → Page} (inside : index < size)
    (tame : Tame ⟨0, size⟩ index (other (small.pages index)))
    (marks : SameMarks (.page index ∈ listed) (change (large.pages (base + index)))
      (other (small.pages index))) :
    Mirrors base size background (large.modifyPage (base + index) change)
      (small.modifyPage index other) listed where
  confined := mirrors.confined.modifyPage fun _ => tame
  placed := mirrors.placed
  marks := by
    intro page bound
    by_cases here : page = index
    · subst here
      simpa using marks
    · have apart : base + page ≠ base + index := by omega
      rw [modifyPage_pages, modifyPage_pages, if_neg here, if_neg apart]
      exact mirrors.marks page bound
  nrFree := mirrors.nrFree
  outside := by
    intro page outside
    have apart : page ≠ base + index := by
      rw [mem_points] at outside
      simp only at outside
      omega
    rw [modifyPage_links, modifyPage_pages, if_neg apart]
    exact mirrors.outside page outside

theorem setNrFree (mirrors : Mirrors base size background large small listed) (nrFree : Nat) :
    Mirrors base size background { large with nrFree } { small with nrFree } listed :=
  { mirrors with
    confined := { mirrors.confined with }
    nrFree := rfl }

/-- A marked page is threaded into the list. -/
theorem linked (mirrors : Mirrors base size background large small listed) (inside : index < size)
    (marked : (small.pages index).flags ≠ 0)
    (placed : Placed (shifted base) (insert (.page index) listed) largeLinks smallLinks)
    (outside : ∀ page, page ∉ (⟨base, size⟩ : Extent).points →
      largeLinks.entry (.page page) = large.links.entry (.page page)) :
    Mirrors base size background { large with links := largeLinks }
      { small with links := smallLinks } (insert (.page index) listed) where
  confined := mirrors.confined.linked placed.closed (mem_points_zero.mpr inside)
  placed := placed
  marks := by
    intro page bound
    have marks := mirrors.marks page bound
    refine ⟨marks.flags, fun looked => ?_⟩
    rcases looked with isListed | isMarked
    · rcases isListed with isNew | old
      · cases isNew
        exact marks.property (.inr marked)
      · exact marks.property (.inl old)
    · exact marks.property (.inr isMarked)
  nrFree := mirrors.nrFree
  outside := fun page isOutside =>
    ⟨(outside page isOutside).trans (mirrors.outside page isOutside).1,
      (mirrors.outside page isOutside).2⟩

theorem unlinked (mirrors : Mirrors base size background large small listed)
    (member : .page index ∈ listed) :
    Mirrors base size background
      { large with links := listDel large.links (.page (base + index)) }
      { small with links := listDel small.links (.page index) } listed where
  confined := mirrors.confined.unlinked member
  placed := mirrors.placed.del (shifted_injective base) member
  marks := mirrors.marks
  nrFree := mirrors.nrFree
  outside := fun page outside =>
    ⟨(mirrors.placed.del_outside (mirrors.ne_shifted outside) member).trans
      (mirrors.outside page outside).1, (mirrors.outside page outside).2⟩

theorem clearProperty (mirrors : Mirrors base size background large small listed)
    (member : .page p ∈ listed) :
    Mirrors base size background
      (large.modifyPage (base + p) fun page => { page with flags := ClearPageProperty page.flags })
      (small.modifyPage p fun page => { page with flags := ClearPageProperty page.flags }) listed := by
  have inside := mirrors.inside member
  have tame := mirrors.confined.tame p (mem_points_zero.mpr inside)
  apply mirrors.modifyPage inside
  · exact ⟨tame.ref, .inl (clearPageProperty_tame tame.flags), tame.property⟩
  · exact (mirrors.marks p inside).clearProperty member

theorem setProperty (mirrors : Mirrors base size background large small listed)
    (inside : index < size) (fits : index + n ≤ size) :
    Mirrors base size background
      (large.modifyPage (base + index) fun page =>
        { page with property := uint32 n, flags := SetPageProperty page.flags })
      (small.modifyPage index fun page =>
        { page with property := uint32 n, flags := SetPageProperty page.flags }) listed := by
  have tame := mirrors.confined.tame index (mem_points_zero.mpr inside)
  have notMore := uint32_le n
  apply mirrors.modifyPage inside
  · refine ⟨tame.ref, .inr (setPageProperty_tame tame.flags), ?_⟩
    simp only
    omega
  · exact (mirrors.marks index inside).setProperty _

/-- What is left of a block becomes a block of its own, behind a listed entry. -/
theorem addRest (mirrors : Mirrors base size background large small listed) (position : le ∈ listed)
    (inside : index < size) (fits : index + n ≤ size) :
    Mirrors base size background
      { large.modifyPage (base + index) fun page =>
          { page with property := uint32 n, flags := SetPageProperty page.flags } with
        links := listAdd large.links (shifted base le) (.page (base + index)) }
      { small.modifyPage index fun page =>
          { page with property := uint32 n, flags := SetPageProperty page.flags } with
        links := listAdd small.links le (.page index) } (insert (.page index) listed) := by
  have tame := mirrors.confined.tame index (mem_points_zero.mpr inside)
  have setFlags := setPageProperty_tame tame.flags
  refine (mirrors.setProperty inside fits).linked inside ?_
    (mirrors.placed.add (shifted_injective base) position) ?_
  · simp [setFlags]
  · intro page outside
    have apart : ∀ x ∈ insert (.page index) listed, Link.page page ≠ shifted base x :=
      mirrors.ne_shifted_insert inside outside
    exact mirrors.placed.add_outside apart position

theorem take (mirrors : Mirrors base size background large small listed)
    (member : .page p ∈ listed) :
    Mirrored base size background (fitTake large (base + p) n) (fitTake small p n) := by
  have same := mirrors.property member
  have reach := mirrors.reach member
  have previous := mirrors.placed.prev _ member
  have before := mirrors.placed.closed.prev _ member
  have removed := mirrors.unlinked member
  unfold fitTake
  simp only [same, mirrors.nrFree]
  by_cases more : n < (small.pages p).property
  · simp only [if_pos more]
    have added := removed.addRest before (by omega : p + n < size)
      (by omega : p + n + ((small.pages p).property - n) ≤ size)
    rw [← previous, ← Nat.add_assoc] at added
    exact ⟨_, (added.setNrFree (uint32Sub small.nrFree n)).clearProperty (.inr member)⟩
  · simp only [if_neg more]
    exact ⟨_, (removed.setNrFree (uint32Sub small.nrFree n)).clearProperty member⟩

theorem join (mirrors : Mirrors base size background large small listed)
    (first : .page p ∈ listed) (second : .page q ∈ listed) (touch : p + (small.pages p).property = q) :
    Mirrors base size background (fitJoin large (base + p) (base + q)) (fitJoin small p q) listed := by
  have inside := mirrors.inside first
  have reach := mirrors.reach second
  have tame := mirrors.confined.tame p (mem_points_zero.mpr inside)
  have marks := mirrors.marks p inside
  have grown : Mirrors base size background
      (large.modifyPage (base + p) fun page =>
        { page with property := uint32 (page.property + (large.pages (base + q)).property) })
      (small.modifyPage p fun page =>
        { page with property := uint32 (page.property + (small.pages q).property) }) listed := by
    have small := uint32_le ((small.pages p).property + (small.pages q).property)
    apply mirrors.modifyPage inside
    · refine ⟨tame.ref, tame.flags, ?_⟩
      simp only
      omega
    · refine ⟨marks.flags, fun _ => ?_⟩
      rw [mirrors.property first, mirrors.property second]
  exact (grown.clearProperty second).unlinked second

theorem mergePrev (mirrors : Mirrors base size background large small listed)
    (member : .page n ∈ listed) :
    Mirrors base size background (fitMergePrev large (base + n)).1 (fitMergePrev small n).1 listed ∧
      (fitMergePrev large (base + n)).2 = base + (fitMergePrev small n).2 ∧
      .page (fitMergePrev small n).2 ∈ listed := by
  have before := mirrors.placed.closed.prev _ member
  have previous : listPrev large.links (.page (base + n)) = shifted base (listPrev small.links (.page n)) :=
    mirrors.placed.prev _ member
  unfold fitMergePrev
  rw [previous]
  cases entry : listPrev small.links (.page n) with
  | freeList => exact ⟨mirrors, rfl, member⟩
  | page p =>
      rw [entry] at before
      have same : base + p + (small.pages p).property = base + n ↔ p + (small.pages p).property = n := by
        omega
      simp only [shifted, mirrors.property before, same]
      by_cases touch : p + (small.pages p).property = n
      · rw [if_pos touch, if_pos touch]
        exact ⟨mirrors.join before member touch, rfl, before⟩
      · rw [if_neg touch, if_neg touch]
        exact ⟨mirrors, rfl, member⟩

theorem mergeNext (mirrors : Mirrors base size background large small listed)
    (member : .page n ∈ listed) :
    Mirrors base size background (fitMergeNext large (base + n)) (fitMergeNext small n) listed := by
  have behind := mirrors.placed.closed.next _ member
  have next : listNext large.links (.page (base + n)) = shifted base (listNext small.links (.page n)) :=
    mirrors.placed.next _ member
  unfold fitMergeNext
  rw [next]
  cases entry : listNext small.links (.page n) with
  | freeList => exact mirrors
  | page p =>
      rw [entry] at behind
      have same : base + n + (small.pages n).property = base + p ↔ n + (small.pages n).property = p := by
        omega
      simp only [shifted, mirrors.property member, same]
      by_cases touch : n + (small.pages n).property = p
      · rw [if_pos touch, if_pos touch]
        exact mirrors.join member behind touch
      · rw [if_neg touch, if_neg touch]
        exact mirrors

end Mirrors

end Ucore.Mm.Fit
