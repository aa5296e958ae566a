import Ucore.Libs.List

namespace Ucore.Libs

/-! Lists that are placed in a larger heap of entries.

The operations of `libs/list.h` read and write entries of the list only, so on
the placed list they do what they do on the small one, and change nothing else.
-/

variable {ν : Type u} {μ : Type v} [DecidableEq ν] [DecidableEq μ] {place : ν → μ} {listed : Set ν}
  {large : Links μ} {small : Links ν} {elm prev next listelm x : ν} {outside : μ}

/-- The entries of the small heap that are listed lie in the large one, at their places. -/
structure Placed (place : ν → μ) (listed : Set ν) (large : Links μ) (small : Links ν) : Prop where
  closed : Closed small listed
  next : ∀ elm ∈ listed, listNext large (place elm) = place (listNext small elm)
  prev : ∀ elm ∈ listed, listPrev large (place elm) = place (listPrev small elm)

theorem update_placed {f : μ → μ} {g : ν → ν} (injective : Function.Injective place)
    (written value : ν) (same : x ≠ written → f (place x) = place (g x)) :
    Function.update f (place written) (place value) (place x) =
      place (Function.update g written value x) := by
  by_cases here : x = written
  · subst here
    rw [Function.update_self, Function.update_self]
  · rw [Function.update_of_ne here, Function.update_of_ne fun equal => here (injective equal)]
    exact same here

theorem entry_setNext (links : Links μ) (value : μ) {elm : μ} (different : outside ≠ elm) :
    (setNext links elm value).entry outside = links.entry outside := by
  simp [setNext, different]

theorem entry_setPrev (links : Links μ) (value : μ) {elm : μ} (different : outside ≠ elm) :
    (setPrev links elm value).entry outside = links.entry outside := by
  simp [setPrev, different]

namespace Placed

theorem between (placed : Placed place listed large small) (injective : Function.Injective place)
    (before : prev ∈ listed) (after : next ∈ listed) :
    Placed place (insert elm listed) (__listAdd large (place elm) (place prev) (place next))
      (__listAdd small elm prev next) where
  closed := placed.closed.between before after
  next := by
    intro x member
    rw [listNext_add, listNext_add]
    apply update_placed injective
    intro isOld
    apply update_placed injective
    intro _
    exact placed.next x (member.resolve_left isOld)
  prev := by
    intro x member
    rw [listPrev_add, listPrev_add]
    apply update_placed injective
    intro isOld
    apply update_placed injective
    intro _
    exact placed.prev x (member.resolve_left isOld)

omit [DecidableEq ν] in
theorem between_outside (elsewhere : ∀ x ∈ insert elm listed, outside ≠ place x)
    (before : prev ∈ listed) (after : next ∈ listed) :
    (__listAdd large (place elm) (place prev) (place next)).entry outside = large.entry outside := by
  have notElm := elsewhere elm (.inl rfl)
  rw [__listAdd, entry_setPrev _ _ notElm, entry_setNext _ _ notElm,
    entry_setNext _ _ (elsewhere prev (.inr before)), entry_setPrev _ _ (elsewhere next (.inr after))]

theorem add (placed : Placed place listed large small) (injective : Function.Injective place)
    (position : listelm ∈ listed) :
    Placed place (insert elm listed) (listAdd large (place listelm) (place elm))
      (listAdd small listelm elm) := by
  rw [listAdd, listAddAfter, placed.next listelm position]
  exact placed.between injective position (placed.closed.next listelm position)

omit [DecidableEq ν] in
theorem add_outside (placed : Placed place listed large small)
    (elsewhere : ∀ x ∈ insert elm listed, outside ≠ place x) (position : listelm ∈ listed) :
    (listAdd large (place listelm) (place elm)).entry outside = large.entry outside := by
  rw [listAdd, listAddAfter, placed.next listelm position]
  exact between_outside elsewhere position (placed.closed.next listelm position)

theorem addBefore (placed : Placed place listed large small) (injective : Function.Injective place)
    (position : listelm ∈ listed) :
    Placed place (insert elm listed) (listAddBefore large (place listelm) (place elm))
      (listAddBefore small listelm elm) := by
  rw [listAddBefore, placed.prev listelm position]
  exact placed.between injective (placed.closed.prev listelm position) position

omit [DecidableEq ν] in
theorem addBefore_outside (placed : Placed place listed large small)
    (elsewhere : ∀ x ∈ insert elm listed, outside ≠ place x) (position : listelm ∈ listed) :
    (listAddBefore large (place listelm) (place elm)).entry outside = large.entry outside := by
  rw [listAddBefore, placed.prev listelm position]
  exact between_outside elsewhere (placed.closed.prev listelm position) position

theorem del (placed : Placed place listed large small) (injective : Function.Injective place)
    (member : elm ∈ listed) : Placed place listed (listDel large (place elm)) (listDel small elm) where
  closed := placed.closed.del member
  next := by
    intro x inside
    rw [listNext_del, listNext_del, placed.next elm member, placed.prev elm member]
    exact update_placed injective _ _ fun _ => placed.next x inside
  prev := by
    intro x inside
    rw [listPrev_del, listPrev_del, placed.next elm member, placed.prev elm member]
    exact update_placed injective _ _ fun _ => placed.prev x inside

omit [DecidableEq ν] in
theorem del_outside (placed : Placed place listed large small)
    (elsewhere : ∀ x ∈ listed, outside ≠ place x) (member : elm ∈ listed) :
    (listDel large (place elm)).entry outside = large.entry outside := by
  rw [listDel, placed.next elm member, placed.prev elm member, __listDel,
    entry_setPrev _ _ (elsewhere _ (placed.closed.next elm member)),
    entry_setNext _ _ (elsewhere _ (placed.closed.prev elm member))]

omit [DecidableEq ν] [DecidableEq μ] in
/-- An empty list may be placed wherever its head is. -/
theorem empty {head : ν} (isList : IsList large (place head) []) (isListSmall : IsList small head []) :
    Placed place {head} large small where
  closed := by
    constructor
    · intro elm same
      cases same
      exact isListSmall.empty_iff.mpr rfl
    · intro elm same
      cases same
      exact isListSmall.reverse.empty_iff.mpr rfl
  next := by
    intro elm same
    cases same
    rw [isList.empty_iff.mpr rfl, isListSmall.empty_iff.mpr rfl]
  prev := by
    intro elm same
    cases same
    rw [isList.reverse.empty_iff.mpr rfl, isListSmall.reverse.empty_iff.mpr rfl]

end Placed

end Ucore.Libs
