namespace Ucore.Data

/-! Singly linked lists that end in a null pointer. -/

variable {ν : Type u} {null head x : ν} {next other : ν → ν} {nodes rest others : List ν}

/-- Following `next` from the pointer `head` meets exactly these nodes before the null pointer. -/
def Chain (next : ν → ν) (null : ν) : ν → List ν → Prop
  | head, [] => head = null
  | head, x :: rest => head = x ∧ x ≠ null ∧ Chain next null (next x) rest

namespace Chain

theorem push (chain : Chain next null head nodes) (points : next x = head) (valid : x ≠ null) :
    Chain next null x (x :: nodes) :=
  ⟨rfl, valid, points ▸ chain⟩

theorem frame (chain : Chain next null head nodes) (same : ∀ x ∈ nodes, other x = next x) :
    Chain other null head nodes := by
  induction nodes generalizing head with
  | nil => exact chain
  | cons x rest ih =>
      obtain ⟨first, valid, onward⟩ := chain
      refine ⟨first, valid, ?_⟩
      rw [same x (List.mem_cons_self ..)]
      exact ih onward fun y member => same y (List.mem_cons_of_mem _ member)

theorem unique (first : Chain next null head nodes) (second : Chain next null head others) :
    nodes = others := by
  induction nodes generalizing head others with
  | nil =>
      cases others with
      | nil => rfl
      | cons y others => exact absurd (second.1.symm.trans first) second.2.1
  | cons x nodes ih =>
      cases others with
      | nil => exact absurd (first.1.symm.trans second) first.2.1
      | cons y others =>
          cases first.1.symm.trans second.1
          rw [ih first.2.2 second.2.2]

theorem empty_iff (chain : Chain next null head nodes) : nodes = [] ↔ head = null := by
  cases nodes with
  | nil => exact iff_of_true rfl chain
  | cons x rest =>
      refine iff_of_false (List.cons_ne_nil x rest) ?_
      rw [chain.1]
      exact chain.2.1

theorem head_mem (chain : Chain next null head nodes) (valid : head ≠ null) : head ∈ nodes := by
  cases nodes with
  | nil => exact absurd chain valid
  | cons x rest =>
      rw [chain.1]
      exact List.mem_cons_self ..

theorem from_mem {left right : List ν} (chain : Chain next null head (left ++ x :: right)) :
    Chain next null x (x :: right) := by
  induction left generalizing head with
  | nil => exact ⟨rfl, chain.2⟩
  | cons y left ih => exact ih chain.2.2

/-- A chain ends, so it meets no node twice. -/
theorem nodup (chain : Chain next null head nodes) : nodes.Nodup := by
  induction nodes generalizing head with
  | nil => exact List.nodup_nil
  | cons x rest ih =>
      refine List.nodup_cons.mpr ⟨fun again => ?_, ih chain.2.2⟩
      obtain ⟨left, right, split⟩ := List.append_of_mem again
      have whole : Chain next null x (x :: rest) := ⟨rfl, chain.2⟩
      have shorter : Chain next null x (x :: right) := by
        rw [split] at chain
        exact from_mem chain.2.2
      have same := congrArg List.length (whole.unique shorter)
      rw [split] at same
      simp only [List.length_cons, List.length_append] at same
      omega

end Chain

end Ucore.Data
