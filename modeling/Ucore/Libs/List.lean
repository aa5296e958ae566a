import Mathlib.Data.Set.Insert
import Ucore.Data.Ring

namespace Ucore.Libs

open Ucore.Data

/-! `libs/list.h`: the intrusive circular doubly linked list.

The links of all entries form one heap.  Its addresses may be of any type, so
that each allocator can say where its entries live.
-/

/-- `struct list_entry`. -/
structure ListEntry (ν : Type u) where
  prev : ν
  next : ν
deriving DecidableEq, Repr

/-- The heap of list entries. -/
structure Links (ν : Type u) where
  entry : ν → ListEntry ν

variable {ν : Type u}

def listNext (links : Links ν) (listelm : ν) : ν := (links.entry listelm).next

def listPrev (links : Links ν) (listelm : ν) : ν := (links.entry listelm).prev

variable [DecidableEq ν]

def setNext (links : Links ν) (elm value : ν) : Links ν :=
  { entry := Function.update links.entry elm { links.entry elm with next := value } }

def setPrev (links : Links ν) (elm value : ν) : Links ν :=
  { entry := Function.update links.entry elm { links.entry elm with prev := value } }

def listInit (links : Links ν) (elm : ν) : Links ν :=
  setPrev (setNext links elm elm) elm elm

set_option linter.style.nameCheck false in
def __listAdd (links : Links ν) (elm prev next : ν) : Links ν :=
  -- prev->next = next->prev = elm
  let links := setPrev links next elm
  let links := setNext links prev elm
  let links := setNext links elm next
  setPrev links elm prev

set_option linter.style.nameCheck false in
def __listDel (links : Links ν) (prev next : ν) : Links ν :=
  let links := setNext links prev next
  setPrev links next prev

def listAddBefore (links : Links ν) (listelm elm : ν) : Links ν :=
  __listAdd links elm (listPrev links listelm) listelm

def listAddAfter (links : Links ν) (listelm elm : ν) : Links ν :=
  __listAdd links elm listelm (listNext links listelm)

def listAdd (links : Links ν) (listelm elm : ν) : Links ν :=
  listAddAfter links listelm elm

def listDel (links : Links ν) (listelm : ν) : Links ν :=
  __listDel links (listPrev links listelm) (listNext links listelm)

def listEmpty (links : Links ν) (list : ν) : Bool :=
  listNext links list = list

variable {links : Links ν} {head elm listelm x : ν} {nodes left right : List ν}

@[simp] theorem listNext_setNext (links : Links ν) (elm value : ν) :
    listNext (setNext links elm value) = Function.update (listNext links) elm value := by
  funext x
  by_cases same : x = elm <;> simp [listNext, setNext, same]

@[simp] theorem listPrev_setNext (links : Links ν) (elm value : ν) :
    listPrev (setNext links elm value) = listPrev links := by
  funext x
  by_cases same : x = elm <;> simp [listPrev, setNext, same]

@[simp] theorem listNext_setPrev (links : Links ν) (elm value : ν) :
    listNext (setPrev links elm value) = listNext links := by
  funext x
  by_cases same : x = elm <;> simp [listNext, setPrev, same]

@[simp] theorem listPrev_setPrev (links : Links ν) (elm value : ν) :
    listPrev (setPrev links elm value) = Function.update (listPrev links) elm value := by
  funext x
  by_cases same : x = elm <;> simp [listPrev, setPrev, same]

@[simp] theorem listNext_add (links : Links ν) (elm prev next : ν) :
    listNext (__listAdd links elm prev next) =
      Function.update (Function.update (listNext links) prev elm) elm next := by
  simp [__listAdd]

@[simp] theorem listPrev_add (links : Links ν) (elm prev next : ν) :
    listPrev (__listAdd links elm prev next) =
      Function.update (Function.update (listPrev links) next elm) elm prev := by
  simp [__listAdd]

@[simp] theorem listNext_del (links : Links ν) (listelm : ν) :
    listNext (listDel links listelm) =
      Function.update (listNext links) (listPrev links listelm) (listNext links listelm) := by
  simp [listDel, __listDel]

@[simp] theorem listPrev_del (links : Links ν) (listelm : ν) :
    listPrev (listDel links listelm) =
      Function.update (listPrev links) (listNext links listelm) (listPrev links listelm) := by
  simp [listDel, __listDel]

/-- The well-formed list with this head that holds these entries. -/
abbrev IsList (links : Links ν) (head : ν) (nodes : List ν) : Prop :=
  Ring (listNext links) (listPrev links) head nodes

theorem listInit_isList (links : Links ν) (head : ν) : IsList (listInit links head) head [] :=
  Ring.singleton (by simp [listInit]) (by simp [listInit])

theorem listEmpty_iff (isList : IsList links head nodes) : listEmpty links head ↔ nodes = [] := by
  simpa [listEmpty] using isList.empty_iff

theorem listAdd_isList (isList : IsList links head (left ++ right))
    (fresh : elm ∉ head :: (left ++ right)) (position : (head :: left).getLast? = some listelm) :
    IsList (listAdd links listelm elm) head (left ++ elm :: right) := by
  simpa [IsList, listAdd, listAddAfter] using isList.insertAfter fresh position

theorem listAddBefore_isList (isList : IsList links head (left ++ right))
    (fresh : elm ∉ head :: (left ++ right)) (position : (right ++ [head]).head? = some listelm) :
    IsList (listAddBefore links listelm elm) head (left ++ elm :: right) := by
  simpa [IsList, listAddBefore] using isList.insertBefore fresh position

theorem listDel_isList (isList : IsList links head (left ++ listelm :: right)) :
    IsList (listDel links listelm) head (left ++ right) := by
  simpa [IsList] using isList.remove

/-! Entries that the links do not lead out of, whether or not they form a list. -/

structure Closed (links : Links ν) (listed : Set ν) : Prop where
  next : ∀ elm ∈ listed, listNext links elm ∈ listed
  prev : ∀ elm ∈ listed, listPrev links elm ∈ listed

variable {listed : Set ν} {prev next : ν}

namespace Closed

theorem init (links : Links ν) (head : ν) : Closed (listInit links head) {head} := by
  constructor
  · intro elm same
    cases same
    simp [listInit]
  · intro elm same
    cases same
    simp [listInit]

theorem between (closed : Closed links listed) (before : prev ∈ listed) (after : next ∈ listed) :
    Closed (__listAdd links elm prev next) (insert elm listed) := by
  constructor
  · intro x member
    simp only [listNext_add, Function.update_apply]
    split_ifs with isNew isPrev
    · exact .inr after
    · exact .inl rfl
    · exact .inr (closed.next x (member.resolve_left isNew))
  · intro x member
    simp only [listPrev_add, Function.update_apply]
    split_ifs with isNew isNext
    · exact .inr before
    · exact .inl rfl
    · exact .inr (closed.prev x (member.resolve_left isNew))

theorem add (closed : Closed links listed) (position : listelm ∈ listed) :
    Closed (listAdd links listelm elm) (insert elm listed) :=
  closed.between position (closed.next listelm position)

theorem addBefore (closed : Closed links listed) (position : listelm ∈ listed) :
    Closed (listAddBefore links listelm elm) (insert elm listed) :=
  closed.between (closed.prev listelm position) position

theorem del (closed : Closed links listed) (member : elm ∈ listed) :
    Closed (listDel links elm) listed := by
  constructor
  · intro x inside
    simp only [listNext_del, Function.update_apply]
    split_ifs
    · exact closed.next elm member
    · exact closed.next x inside
  · intro x inside
    simp only [listPrev_del, Function.update_apply]
    split_ifs
    · exact closed.prev elm member
    · exact closed.prev x inside

end Closed

end Ucore.Libs
