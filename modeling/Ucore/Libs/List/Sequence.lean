import Ucore.Libs.List

namespace Ucore.Libs

open Ucore.Data

/-! The list operations on the sequence of entries that a list stands for. -/

variable {ν : Type u} {links : Links ν} {head elm listelm x y : ν} {nodes left right : List ν}

theorem entry_split (isList : IsList links head nodes) (member : x ∈ nodes) :
    ∃ left right, nodes = left ++ x :: right ∧ x ∉ left ∧ x ≠ head := by
  obtain ⟨left, right, rfl⟩ := List.append_of_mem member
  obtain ⟨outside, once⟩ := List.nodup_cons.mp isList.nodup
  refine ⟨left, right, rfl, fun earlier => ?_, fun same => outside (same ▸ member)⟩
  exact (List.nodup_append.mp once).2.2 x earlier x List.mem_cons_self rfl

theorem entry_ext {links' : Links ν} (next : listNext links' x = listNext links x)
    (prev : listPrev links' x = listPrev links x) : links'.entry x = links.entry x := by
  cases found : links.entry x with
  | mk before after =>
      cases found' : links'.entry x with
      | mk before' after' =>
          simp only [listNext, listPrev, found, found'] at next prev
          rw [next, prev]

variable [DecidableEq ν]

/-- Insert behind an entry. -/
def insertAfter (listelm elm : ν) : List ν → List ν
  | [] => []
  | x :: nodes => if x = listelm then x :: elm :: nodes else x :: insertAfter listelm elm nodes

def insertBefore (listelm elm : ν) : List ν → List ν
  | [] => []
  | x :: nodes => if x = listelm then elm :: x :: nodes else x :: insertBefore listelm elm nodes

/-- Behind the head is the front. -/
def addedAfter (head listelm elm : ν) (nodes : List ν) : List ν :=
  if listelm = head then elm :: nodes else insertAfter listelm elm nodes

/-- Before the head is the end. -/
def addedBefore (head listelm elm : ν) (nodes : List ν) : List ν :=
  if listelm = head then nodes ++ [elm] else insertBefore listelm elm nodes

theorem insertAfter_append (outside : listelm ∉ left) :
    insertAfter listelm elm (left ++ listelm :: right) = left ++ listelm :: elm :: right := by
  induction left with
  | nil => rw [List.nil_append, insertAfter, if_pos rfl, List.nil_append]
  | cons x left ih =>
      obtain ⟨other, outside⟩ := List.ne_and_not_mem_of_not_mem_cons outside
      rw [List.cons_append, insertAfter, if_neg other.symm, ih outside, List.cons_append]

theorem insertBefore_append (outside : listelm ∉ left) :
    insertBefore listelm elm (left ++ listelm :: right) = left ++ elm :: listelm :: right := by
  induction left with
  | nil => rw [List.nil_append, insertBefore, if_pos rfl, List.nil_append]
  | cons x left ih =>
      obtain ⟨other, outside⟩ := List.ne_and_not_mem_of_not_mem_cons outside
      rw [List.cons_append, insertBefore, if_neg other.symm, ih outside, List.cons_append]

theorem listAdd_refines (isList : IsList links head nodes) (fresh : elm ∉ head :: nodes)
    (position : listelm ∈ head :: nodes) :
    IsList (listAdd links listelm elm) head (addedAfter head listelm elm nodes) := by
  rw [addedAfter]
  rcases List.mem_cons.mp position with isHead | member
  · rw [if_pos isHead, isHead]
    exact @listAdd_isList _ _ links head elm head [] nodes isList fresh rfl
  · obtain ⟨left, right, rfl, outside, notHead⟩ := entry_split isList member
    have behind (right : List ν) : left ++ listelm :: right = (left ++ [listelm]) ++ right := by
      rw [List.append_assoc, List.singleton_append]
    rw [if_neg notHead, insertAfter_append outside, behind]
    rw [behind] at isList fresh
    refine listAdd_isList isList fresh ?_
    rw [← List.cons_append, List.getLast?_concat]

theorem listAddBefore_refines (isList : IsList links head nodes) (fresh : elm ∉ head :: nodes)
    (position : listelm ∈ head :: nodes) :
    IsList (listAddBefore links listelm elm) head (addedBefore head listelm elm nodes) := by
  rw [addedBefore]
  rcases List.mem_cons.mp position with isHead | member
  · rw [if_pos isHead, isHead]
    rw [← List.append_nil nodes] at isList fresh
    exact listAddBefore_isList isList fresh rfl
  · obtain ⟨left, right, rfl, outside, notHead⟩ := entry_split isList member
    rw [if_neg notHead, insertBefore_append outside]
    exact listAddBefore_isList isList fresh rfl

theorem listDel_refines (isList : IsList links head nodes) (member : listelm ∈ nodes) :
    IsList (listDel links listelm) head (nodes.erase listelm) := by
  obtain ⟨left, right, rfl, outside, _⟩ := entry_split isList member
  rw [List.erase_append_right _ outside, List.erase_cons_head]
  exact listDel_isList isList

/-! What the operations leave alone. -/

theorem add_entry {prev next : ν} (notElm : x ≠ elm) (notPrev : x ≠ prev) (notNext : x ≠ next) :
    (__listAdd links elm prev next).entry x = links.entry x := by
  apply entry_ext
  · rw [listNext_add, Function.update_of_ne notElm, Function.update_of_ne notPrev]
  · rw [listPrev_add, Function.update_of_ne notElm, Function.update_of_ne notNext]

theorem del_entry (notPrev : x ≠ listPrev links elm) (notNext : x ≠ listNext links elm) :
    (listDel links elm).entry x = links.entry x := by
  apply entry_ext
  · rw [listNext_del, Function.update_of_ne notPrev]
  · rw [listPrev_del, Function.update_of_ne notNext]

/-- On a list of any length the operations insert and delete in the sequence of its entries, and change
no entry but the new one and the neighbours. -/
theorem list_refines (isList : IsList links head nodes) :
    (∀ x elm, x ∈ head :: nodes → elm ∉ head :: nodes →
      IsList (listAdd links x elm) head (addedAfter head x elm nodes) ∧
      IsList (listAddAfter links x elm) head (addedAfter head x elm nodes) ∧
      IsList (listAddBefore links x elm) head (addedBefore head x elm nodes) ∧
      (∀ y, y ≠ elm → y ≠ x → y ≠ listNext links x →
        (listAdd links x elm).entry y = links.entry y ∧
          (listAddAfter links x elm).entry y = links.entry y) ∧
      ∀ y, y ≠ elm → y ≠ x → y ≠ listPrev links x →
        (listAddBefore links x elm).entry y = links.entry y) ∧
    ∀ y ∈ nodes, IsList (listDel links y) head (nodes.erase y) ∧
      ∀ z, z ≠ listPrev links y → z ≠ listNext links y →
        (listDel links y).entry z = links.entry z := by
  refine ⟨fun x elm position fresh => ⟨?_, ?_, ?_, ?_, ?_⟩, fun y member => ⟨?_, ?_⟩⟩
  · exact listAdd_refines isList fresh position
  · exact listAdd_refines isList fresh position
  · exact listAddBefore_refines isList fresh position
  · exact fun y notElm notPrev notNext =>
      ⟨add_entry notElm notPrev notNext, add_entry notElm notPrev notNext⟩
  · exact fun y notElm notNext notPrev => add_entry notElm notPrev notNext
  · exact listDel_refines isList member
  · exact fun z notPrev notNext => del_entry notPrev notNext

/-- Three entries behind the head 0. -/
def threeEntries : Links Nat :=
  ⟨fun x => if x = 0 then ⟨3, 1⟩ else if x = 3 then ⟨2, 0⟩ else ⟨x - 1, x + 1⟩⟩

theorem threeEntries_isList : IsList threeEntries 0 [1, 2, 3] :=
  ⟨⟨rfl, rfl, rfl, rfl, rfl, rfl, rfl, rfl⟩, by decide⟩

/-- A new entry behind the first one and one before the second, and the second one deleted. -/
theorem list_refines_three :
    (IsList (listAdd threeEntries 1 4) 0 [1, 4, 2, 3] ∧
      IsList (listAddBefore threeEntries 2 4) 0 [1, 4, 2, 3] ∧
      (listAdd threeEntries 1 4).entry 3 = ⟨2, 0⟩) ∧
    IsList (listDel threeEntries 2) 0 [1, 3] ∧ (listDel threeEntries 2).entry 0 = ⟨3, 1⟩ := by
  obtain ⟨insert, delete⟩ := list_refines threeEntries_isList
  obtain ⟨behind, _, _, frame, _⟩ := insert 1 4 (by decide) (by decide)
  obtain ⟨_, _, before, _, _⟩ := insert 2 4 (by decide) (by decide)
  obtain ⟨deleted, kept⟩ := delete 2 (by decide)
  have third : (listAdd threeEntries 1 4).entry 3 = threeEntries.entry 3 :=
    (frame 3 (by decide) (by decide) (by decide)).1
  exact ⟨⟨behind, before, third⟩, deleted, kept 0 (by decide) (by decide)⟩

end Ucore.Libs
