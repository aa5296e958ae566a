import Mathlib.Data.List.Nodup

namespace Ucore.Data

/-! Circular doubly linked structures.

A heap of nodes is given by its two link functions alone, over any type of
addresses.  `Ring next prev head nodes` says that the nodes are threaded, in
this order and in both directions, through the distinguished node `head`.
`Circuit` keeps the forward direction only: it is what a traversal observes.
-/

variable {ν : Type u} {next prev next' prev' : ν → ν} {a b x y e head : ν}
  {nodes others left right : List ν}

/-- `next` leads from `a` through the nodes to `b`, and `prev` leads back. -/
def Linked (next prev : ν → ν) : ν → List ν → ν → Prop
  | a, [], b => next a = b ∧ prev b = a
  | a, x :: rest, b => next a = x ∧ prev x = a ∧ Linked next prev x rest b

/-- The forward half of `Linked`. -/
def Walk (next : ν → ν) : ν → List ν → ν → Prop
  | a, [], b => next a = b
  | a, x :: rest, b => next a = x ∧ Walk next x rest b

/-- Following `next` from `head` meets exactly these nodes before `head` again. -/
def Circuit (next : ν → ν) (head : ν) (nodes : List ν) : Prop :=
  Walk next head nodes head ∧ head ∉ nodes

structure Ring (next prev : ν → ν) (head : ν) (nodes : List ν) : Prop where
  linked : Linked next prev head nodes head
  nodup : (head :: nodes).Nodup

theorem linked_append :
    Linked next prev a (left ++ x :: right) b ↔
      Linked next prev a left x ∧ Linked next prev x right b := by
  induction left generalizing a with
  | nil => simp [Linked, and_assoc]
  | cons y left ih => simp [Linked, ih, and_assoc]

theorem Linked.frame (linked : Linked next prev a nodes b)
    (sameNext : ∀ x ∈ a :: nodes, next' x = next x)
    (samePrev : ∀ x ∈ nodes ++ [b], prev' x = prev x) :
    Linked next' prev' a nodes b := by
  induction nodes generalizing a with
  | nil =>
      obtain ⟨forth, back⟩ := linked
      exact ⟨(sameNext a (by simp)).trans forth, (samePrev b (by simp)).trans back⟩
  | cons y rest ih =>
      obtain ⟨forth, back, linked⟩ := linked
      refine ⟨(sameNext a (by simp)).trans forth, (samePrev y (by simp)).trans back, ?_⟩
      exact ih linked (fun x member => sameNext x (List.mem_cons_of_mem _ member))
        (fun x member => samePrev x (List.mem_cons_of_mem _ member))

theorem Linked.reverse (linked : Linked next prev a nodes b) :
    Linked prev next b nodes.reverse a := by
  induction nodes generalizing a with
  | nil => exact ⟨linked.2, linked.1⟩
  | cons x rest ih =>
      obtain ⟨forth, back, linked⟩ := linked
      rw [List.reverse_cons]
      exact linked_append.mpr ⟨ih linked, back, forth⟩

theorem Linked.walk (linked : Linked next prev a nodes b) : Walk next a nodes b := by
  induction nodes generalizing a with
  | nil => exact linked.1
  | cons x rest ih => exact ⟨linked.1, ih linked.2.2⟩

theorem Linked.prev_next (linked : Linked next prev a nodes b) (member : x ∈ a :: nodes) :
    prev (next x) = x ∧ next x ∈ nodes ++ [b] := by
  induction nodes generalizing a with
  | nil =>
      obtain rfl : x = a := by simpa using member
      simp [linked.1, linked.2]
  | cons y rest ih =>
      obtain ⟨forth, back, linked⟩ := linked
      rcases List.mem_cons.mp member with rfl | later
      · simp [forth, back]
      · obtain ⟨returns, inside⟩ := ih linked later
        exact ⟨returns, List.mem_cons_of_mem _ inside⟩

theorem Walk.unique (first : Walk next a nodes b) (second : Walk next a others b)
    (outsideFirst : b ∉ nodes) (outsideSecond : b ∉ others) : nodes = others := by
  induction nodes generalizing a others with
  | nil =>
      cases others with
      | nil => rfl
      | cons y others => exact absurd (first.symm.trans second.1) (by simp_all)
  | cons x nodes ih =>
      cases others with
      | nil => exact absurd (second.symm.trans first.1) (by simp_all)
      | cons y others =>
          obtain rfl : x = y := first.1.symm.trans second.1
          rw [ih first.2 second.2 (by simp_all) (by simp_all)]

theorem Circuit.unique (first : Circuit next head nodes) (second : Circuit next head others) :
    nodes = others :=
  first.1.unique second.1 first.2 second.2

theorem Circuit.next_ne (circuit : Circuit next head nodes) (member : x ∈ nodes) : next x ≠ x := by
  obtain ⟨walk, outside⟩ := circuit
  have stays : ∀ {rest : List ν}, next x = x → ¬ Walk next x rest head := by
    intro rest fixed
    induction rest with
    | nil => exact fun ends => outside (ends.symm.trans fixed ▸ member)
    | cons y rest ih => exact fun onward => ih (onward.1.symm.trans fixed ▸ onward.2)
  obtain ⟨before, after, rfl⟩ := List.append_of_mem member
  have onward : ∀ {start : ν} {before : List ν},
      Walk next start (before ++ x :: after) head → Walk next x after head := by
    intro start before walk
    induction before generalizing start with
    | nil => exact walk.2
    | cons y before ih => exact ih walk.2
  exact fun fixed => stays fixed (onward walk)

namespace Ring

theorem circuit (ring : Ring next prev head nodes) : Circuit next head nodes :=
  ⟨ring.linked.walk, (List.nodup_cons.mp ring.nodup).1⟩

theorem frame (ring : Ring next prev head nodes)
    (sameNext : ∀ x ∈ head :: nodes, next' x = next x)
    (samePrev : ∀ x ∈ head :: nodes, prev' x = prev x) : Ring next' prev' head nodes where
  linked := ring.linked.frame sameNext (fun x member => samePrev x (by
    simpa [or_comm] using member))
  nodup := ring.nodup

theorem reverse (ring : Ring next prev head nodes) : Ring prev next head nodes.reverse where
  linked := ring.linked.reverse
  nodup := by simpa using ring.nodup

theorem prev_next (ring : Ring next prev head nodes) (member : x ∈ head :: nodes) :
    prev (next x) = x :=
  (ring.linked.prev_next member).1

theorem next_prev (ring : Ring next prev head nodes) (member : x ∈ head :: nodes) :
    next (prev x) = x :=
  ring.reverse.prev_next (by simpa using member)

theorem next_mem (ring : Ring next prev head nodes) (member : x ∈ head :: nodes) :
    next x ∈ head :: nodes := by
  simpa [or_comm] using (ring.linked.prev_next member).2

theorem prev_mem (ring : Ring next prev head nodes) (member : x ∈ head :: nodes) :
    prev x ∈ head :: nodes := by
  simpa using ring.reverse.next_mem (x := x) (by simpa using member)

theorem empty_iff (ring : Ring next prev head nodes) : next head = head ↔ nodes = [] := by
  cases nodes with
  | nil => simpa using ring.linked.1
  | cons x rest =>
      have first : next head = x := ring.linked.1
      have distinct := (List.nodup_cons.mp ring.nodup).1
      rw [first]
      constructor
      · intro same
        exact absurd (same ▸ List.mem_cons_self ..) distinct
      · intro none
        cases none

theorem singleton (alone : next head = head) (back : prev head = head) :
    Ring next prev head [] :=
  ⟨⟨alone, back⟩, by simp⟩

theorem first (ring : Ring next prev head (x :: right)) : next head = x ∧ prev x = head :=
  ⟨ring.linked.1, ring.linked.2.1⟩

theorem adjacent (ring : Ring next prev head (left ++ x :: y :: right)) :
    next x = y ∧ prev y = x := by
  obtain ⟨_, after⟩ := linked_append.mp ring.linked
  exact ⟨after.1, after.2.1⟩

theorem last (ring : Ring next prev head (left ++ [x])) : next x = head ∧ prev head = x :=
  (linked_append.mp ring.linked).2

theorem getLast?_eq_prev (ring : Ring next prev head (left ++ y :: right)) :
    (head :: left).getLast? = some (prev y) := by
  rcases List.eq_nil_or_concat left with rfl | ⟨front, x, rfl⟩
  · simp [ring.first.2]
  · rw [List.concat_eq_append, List.append_assoc] at ring
    rw [List.concat_eq_append, ← List.cons_append, List.getLast?_concat, ring.adjacent.2]

end Ring

theorem notMem_concat (outside : e ∉ nodes) (different : e ≠ b) : e ∉ nodes ++ [b] := by
  rw [List.mem_append, List.mem_singleton]
  exact not_or.mpr ⟨outside, different⟩

section Splice

variable [DecidableEq ν]

/-- Threading `e` in behind `x`, at the start of a path. -/
theorem Linked.insert (linked : Linked next prev x right b)
    (fresh : e ≠ x ∧ e ∉ right ∧ e ≠ b) (start : x ∉ right) (stop : b ∉ right)
    (distinct : right.Nodup) :
    Linked (Function.update (Function.update next x e) e (next x))
      (Function.update (Function.update prev (next x) e) e x) x (e :: right) b := by
  obtain ⟨notStart, notInside, notStop⟩ := fresh
  cases right with
  | nil =>
      obtain ⟨forth, back⟩ := linked
      simp [Linked, forth, notStart.symm, notStop.symm]
  | cons y rest =>
      obtain ⟨forth, back, linked⟩ := linked
      obtain ⟨notY, notRest⟩ := not_or.mp (List.mem_cons.not.mp notInside)
      have onceY : y ∉ rest ++ [b] :=
        notMem_concat (List.nodup_cons.mp distinct).1 (List.ne_of_not_mem_cons stop).symm
      refine ⟨by simp [notStart.symm], by simp, by simp [forth], by simp [forth, Ne.symm notY], ?_⟩
      apply linked.frame
      · intro z member
        rw [Function.update_of_ne (ne_of_mem_of_not_mem member notInside),
          Function.update_of_ne (ne_of_mem_of_not_mem member start)]
      · intro z member
        rw [Function.update_of_ne (ne_of_mem_of_not_mem member (notMem_concat notRest notStop)),
          forth, Function.update_of_ne (ne_of_mem_of_not_mem member onceY)]

/-- Letting `x` take over the path that started at `y`. -/
theorem Linked.bypass (linked : Linked next prev y right b)
    (start : x ∉ right) (stop : b ∉ right) (distinct : right.Nodup) :
    Linked (Function.update next x (next y)) (Function.update prev (next y) x) x right b := by
  cases right with
  | nil => simp [Linked, linked.1]
  | cons z rest =>
      obtain ⟨forth, back, linked⟩ := linked
      have onceZ : z ∉ rest ++ [b] :=
        notMem_concat (List.nodup_cons.mp distinct).1 (List.ne_of_not_mem_cons stop).symm
      refine ⟨by simp [forth], by simp [forth], ?_⟩
      apply linked.frame
      · intro w member
        rw [Function.update_of_ne (ne_of_mem_of_not_mem member start)]
      · intro w member
        rw [forth, Function.update_of_ne (ne_of_mem_of_not_mem member onceZ)]

namespace Ring

/-- Insert `e` right behind `x`, where `x` ends the part of the ring on the left. -/
theorem insertAfter (ring : Ring next prev head (left ++ right))
    (fresh : e ∉ head :: (left ++ right)) (position : (head :: left).getLast? = some x) :
    Ring (Function.update (Function.update next x e) e (next x))
      (Function.update (Function.update prev (next x) e) e x) head (left ++ e :: right) where
  nodup := by
    have perm : (head :: (left ++ e :: right)).Perm (e :: head :: (left ++ right)) :=
      (List.perm_middle.cons head).trans (List.Perm.swap ..)
    exact perm.nodup_iff.mpr (List.nodup_cons.mpr ⟨fresh, ring.nodup⟩)
  linked := by
    obtain ⟨notHead, notInside⟩ := not_or.mp (List.mem_cons.not.mp fresh)
    obtain ⟨outside, distinct⟩ := List.nodup_cons.mp ring.nodup
    rcases List.eq_nil_or_concat left with rfl | ⟨front, last, rfl⟩
    · obtain rfl : head = x := by simpa using position
      exact ring.linked.insert ⟨notHead, notInside, notHead⟩ outside outside distinct
    · simp only [List.concat_eq_append, List.append_assoc, List.singleton_append] at *
      rw [← List.cons_append, List.getLast?_concat] at position
      obtain rfl : last = x := Option.some.inj position
      obtain ⟨before, after⟩ := linked_append.mp ring.linked
      obtain ⟨_, distinctLast, apart⟩ := List.nodup_append.mp distinct
      obtain ⟨onceLast, distinctRight⟩ := List.nodup_cons.mp distinctLast
      simp only [List.mem_append, List.mem_cons, not_or] at notInside outside
      obtain ⟨notFront, notLast, notRight⟩ := notInside
      obtain ⟨headFront, headLast, headRight⟩ := outside
      have lastOutside : last ∉ head :: front := by
        intro member
        rcases List.mem_cons.mp member with same | member
        · exact headLast same.symm
        · exact apart last member last (List.mem_cons_self ..) rfl
      refine linked_append.mpr ⟨before.frame ?_ ?_, ?_⟩
      · intro z member
        have notE : e ∉ head :: front := List.not_mem_cons_of_ne_of_not_mem notHead notFront
        rw [Function.update_of_ne (ne_of_mem_of_not_mem member notE),
          Function.update_of_ne (ne_of_mem_of_not_mem member lastOutside)]
      · intro z member
        have nextOutside : next last ∉ front ++ [last] := by
          have inside := (after.prev_next (List.mem_cons_self ..)).2
          rcases List.mem_append.mp inside with inside | isHead
          · exact notMem_concat
              (fun member => apart _ member _ (List.mem_cons_of_mem _ inside) rfl)
              (ne_of_mem_of_not_mem inside onceLast)
          · rw [List.mem_singleton.mp isHead]
            exact notMem_concat headFront headLast
        rw [Function.update_of_ne (ne_of_mem_of_not_mem member (notMem_concat notFront notLast)),
          Function.update_of_ne (ne_of_mem_of_not_mem member nextOutside)]
      · exact after.insert ⟨notLast, notRight, notHead⟩ onceLast headRight distinctRight

/-- Insert `e` right before `x`, where `x` starts the part of the ring on the right. -/
theorem insertBefore (ring : Ring next prev head (left ++ right))
    (fresh : e ∉ head :: (left ++ right)) (position : (right ++ [head]).head? = some x) :
    Ring (Function.update (Function.update next (prev x) e) e x)
      (Function.update (Function.update prev x e) e (prev x)) head (left ++ e :: right) := by
  have mirrored := ring.reverse
  rw [List.reverse_append] at mirrored
  have inserted := mirrored.insertAfter (e := e) (x := x) (by simpa [or_comm] using fresh) (by
    rw [← position, ← List.head?_reverse]
    simp)
  simpa using inserted.reverse

theorem remove (ring : Ring next prev head (left ++ y :: right)) :
    Ring (Function.update next (prev y) (next y)) (Function.update prev (next y) (prev y))
      head (left ++ right) where
  nodup := ring.nodup.sublist (by simp)
  linked := by
    obtain ⟨before, after⟩ := linked_append.mp ring.linked
    obtain ⟨outside, distinct⟩ := List.nodup_cons.mp ring.nodup
    obtain ⟨distinctLeft, distinctMiddle, apart⟩ := List.nodup_append.mp distinct
    have distinctRight := (List.nodup_cons.mp distinctMiddle).2
    simp only [List.mem_append, List.mem_cons, not_or] at outside
    obtain ⟨headLeft, _, headRight⟩ := outside
    have nextOutside : next y ∉ left := by
      intro member
      have inside := (after.prev_next (List.mem_cons_self ..)).2
      rcases List.mem_append.mp inside with inside | isHead
      · exact apart _ member _ (List.mem_cons_of_mem _ inside) rfl
      · exact headLeft (List.mem_singleton.mp isHead ▸ member)
    rcases List.eq_nil_or_concat left with rfl | ⟨front, last, rfl⟩
    · rw [before.2]
      exact after.bypass headRight headRight distinctRight
    · simp only [List.concat_eq_append] at *
      obtain ⟨start, back⟩ := linked_append.mp before
      rw [List.append_assoc, List.singleton_append, back.2]
      have onceLast : last ∉ head :: front := by
        intro member
        rcases List.mem_cons.mp member with same | member
        · exact headLeft (same ▸ List.mem_append_right _ (List.mem_singleton_self _))
        · exact (List.nodup_append.mp distinctLeft).2.2 last member last
            (List.mem_singleton_self _) rfl
      have lastRight : last ∉ right := fun member =>
        apart last (List.mem_append_right _ (List.mem_singleton_self _)) last
          (List.mem_cons_of_mem _ member) rfl
      refine linked_append.mpr ⟨start.frame ?_ ?_, ?_⟩
      · intro z member
        rw [Function.update_of_ne (ne_of_mem_of_not_mem member onceLast)]
      · intro z member
        rw [Function.update_of_ne (ne_of_mem_of_not_mem member nextOutside)]
      · exact after.bypass lastRight headRight distinctRight

end Ring

end Splice

end Ucore.Data
