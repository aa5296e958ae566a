import Ucore.Driver.Dtb.Decode

namespace Ucore.Driver.Dtb

open Ucore.Data Ucore.Libs Ucore.Mm

/-! Which `reg` property the walk takes for that of the memory. -/

/-- `memory` or `memory@<unit address>`. -/
def isMemory (name : List UInt8) : Bool :=
  name = memoryName ∨ memoryName ++ [64] <+: name ∧ 7 < name.length

/-- The bases and sizes of the `reg` properties of a node. -/
def regs (props : List Property) : List (Nat × Nat) :=
  (props.filter (·.isReg)).map (·.reg)

/-- Those of the memory nodes, in the order of the tree. -/
def Nodes.memoryRegs : Nodes → List (Nat × Nat)
  | .none => []
  | .node name props children siblings =>
      (if isMemory name.bytes then regs props else []) ++ (children.memoryRegs ++ siblings.memoryRegs)

/-- Those of the nodes at which the flag is set, each with whether it belongs to a memory node:
the name begins with `memory`, or the flag comes from the parent of a first child. -/
def Nodes.flaggedRegs (flag : Bool) : Nodes → List (Bool × (Nat × Nat))
  | .none => []
  | .node name props children siblings =>
      let inside := flag || decide (memoryName <+: name.bytes)
      (if inside then (regs props).map (isMemory name.bytes, ·) else []) ++
        (children.flaggedRegs inside ++ siblings.flaggedRegs false)

/-- No node that merely carries the flag gives another value before the memory nodes do. -/
def Unmistaken (nodes : Nodes) : Prop :=
  ∀ value, (nodes.flaggedRegs false).head? = some (false, value) → nodes.memoryRegs.head? = some value

variable {memory : KernelMemory} {dtb structOffset stringsOffset : Nat} {flag : Bool}
  {name : List UInt8} {items rest : List Item} {nodes : Nodes}

theorem memoryName_of_isMemory (isNode : isMemory name = true) : memoryName <+: name := by
  rcases of_decide_eq_true isNode with same | ⟨unit, _⟩
  · subst same
    exact List.prefix_rfl
  · exact (List.prefix_append _ _).trans unit

theorem flaggedRegs_memory (nodes : Nodes) (flag : Bool) :
    ((nodes.flaggedRegs flag).filter Prod.fst).map Prod.snd = nodes.memoryRegs := by
  induction nodes generalizing flag with
  | none => rfl
  | node name props children siblings ihChildren ihSiblings =>
      have own : (List.filter Prod.fst (if (flag || decide (memoryName <+: name.bytes)) = true then
          (regs props).map (isMemory name.bytes, ·) else [])).map Prod.snd =
          if isMemory name.bytes then regs props else [] := by
        cases isNode : isMemory name.bytes with
        | true =>
            have starts := decide_eq_true (memoryName_of_isMemory isNode)
            rw [starts, Bool.or_true, if_pos rfl, if_pos rfl, List.filter_map]
            simp [Function.comp_def]
        | false =>
            rw [if_neg Bool.false_ne_true, List.map_eq_nil_iff, List.filter_eq_nil_iff]
            intro entry member
            split at member
            · obtain ⟨_, _, rfl⟩ := List.mem_map.mp member
              exact Bool.false_ne_true
            · cases member
      simp only [Nodes.flaggedRegs, Nodes.memoryRegs, List.filter_append, List.map_append, own,
        ihChildren, ihSiblings]

theorem scan_nops (flag : Bool) (items : List Item) :
    scan flag (items.filter (!·.isNop)) = scan flag items := by
  induction items generalizing flag with
  | nil => rfl
  | cons item items ih =>
      cases item with
      | nop => exact ih flag
      | beginNode name => exact ih _
      | endNode => exact ih _
      | prop property =>
          simp only [List.filter_cons, Item.isNop, Bool.not_false, if_true, scan]
          cases (Item.prop property).effect flag with
          | go flag' => exact ih flag'
          | stop found => rfl
      | finish => rfl

theorem scan_props (flag : Bool) (props : List Property) (rest : List Item) :
    scan flag (props.map .prop ++ rest) =
      (if flag then regs props else []).head?.or (scan flag rest) := by
  induction props with
  | nil =>
      rw [regs]
      simp
  | cons property props ih =>
      rw [List.map_cons, List.cons_append, scan, Item.effect]
      cases flag with
      | false => exact ih
      | true =>
          cases isReg : property.isReg with
          | true => simp [regs, isReg]
          | false =>
              have same : regs (property :: props) = regs props := by simp [regs, isReg]
              rw [same]
              exact ih

/-- What the walk finds is the first `reg` property of a node with the flag. -/
theorem scan_nodes (nodes : Nodes) (flag : Bool) (rest : List Item)
    (ended : ∀ flag, scan flag rest = scan false rest) :
    scan flag (nodes.items ++ rest) =
      ((nodes.flaggedRegs flag).map Prod.snd).head?.or (scan false rest) := by
  induction nodes generalizing flag rest with
  | none => exact ended flag
  | node name props children siblings ihChildren ihSiblings =>
      have own (inside : Bool) : ((if inside then (regs props).map (isMemory name.bytes, ·) else []).map
          Prod.snd) = if inside then regs props else [] := by
        cases inside with
        | false => rfl
        | true => simp [Function.comp_def]
      have begins : scan flag ((Nodes.node name props children siblings).items ++ rest) =
          scan (flag || decide (memoryName <+: name.bytes)) (props.map .prop ++
            (children.items ++ (.endNode :: (siblings.items ++ rest)))) := by
        simp [Nodes.items, scan, Item.effect]
      rw [begins, scan_props, ihChildren _ (.endNode :: (siblings.items ++ rest)) fun _ => rfl]
      have closes : scan false (.endNode :: (siblings.items ++ rest)) =
          scan false (siblings.items ++ rest) := rfl
      rw [closes, ihSiblings false rest ended, Nodes.flaggedRegs]
      simp only [List.map_append, own, List.head?_append, Option.or_assoc]

theorem Serialises.scan (serialises : Serialises nodes items) :
    scan false items = ((nodes.flaggedRegs false).map Prod.snd).head? := by
  rw [← scan_nops, serialises, scan_nodes nodes false [.finish] fun _ => rfl]
  exact Option.or_none

/-- The first entry is the first one of a memory node, unless it belongs to another node. -/
theorem head_flagged_iff (entries : List (Bool × (Nat × Nat))) :
    (entries.map Prod.snd).head? = ((entries.filter Prod.fst).map Prod.snd).head? ↔
      ∀ value, entries.head? = some (false, value) →
        ((entries.filter Prod.fst).map Prod.snd).head? = some value := by
  cases entries with
  | nil => simp
  | cons entry entries =>
      obtain ⟨isNode, value⟩ := entry
      cases isNode with
      | true => simp
      | false => simp [eq_comm]

theorem Serialises.scan_iff (serialises : Serialises nodes items) :
    Dtb.scan false items = nodes.memoryRegs.head? ↔ Unmistaken nodes := by
  rw [serialises.scan, Unmistaken, ← flaggedRegs_memory nodes false]
  exact head_flagged_iff _

/-! Two trees with two address cells and two size cells. -/

/-- `reg`, `#address-cells` and `#size-cells`. -/
def cellStrings : List UInt8 :=
  regName ++ [0] ++ [35, 97, 100, 100, 114, 101, 115, 115, 45, 99, 101, 108, 108, 115, 0] ++
    [35, 115, 105, 122, 101, 45, 99, 101, 108, 108, 115, 0]

def cellProps : List Property :=
  [⟨⟨[35, 97, 100, 100, 114, 101, 115, 115, 45, 99, 101, 108, 108, 115], by decide⟩, 4, bigEndian32 2,
      by decide, by decide⟩,
    ⟨⟨[35, 115, 105, 122, 101, 45, 99, 101, 108, 108, 115], by decide⟩, 19, bigEndian32 2,
      by decide, by decide⟩]

def rangeProp (base size : Nat) : Property :=
  regProperty (bigEndian32 0 ++ bigEndian32 base ++ bigEndian32 0 ++ bigEndian32 size)
    (by simp [bigEndian32])

/-- A node `memory@80000000` below the root. -/
def memoryTree : Nodes :=
  .node ⟨[], rootName_noZero⟩ cellProps
    (.node ⟨memoryName ++ [64, 56, 48, 48, 48, 48, 48, 48, 48], by decide⟩
      [rangeProp 0x80000000 0x8000000] .none .none) .none

/-- A node `memory-controller` stands before it. -/
def controllerTree : Nodes :=
  .node ⟨[], rootName_noZero⟩ cellProps
    (.node ⟨memoryName ++ [45, 99, 111, 110, 116, 114, 111, 108, 108, 101, 114], by decide⟩
      [rangeProp 0x10000000 0x1000] .none
      (.node ⟨memoryName ++ [64, 56, 48, 48, 48, 48, 48, 48, 48], by decide⟩
        [rangeProp 0x80000000 0x8000000] .none .none)) .none

theorem tree_serialises (nodes : Nodes) (noNops : nodes.items.all (!·.isNop) = true) :
    Serialises nodes (nodes.items ++ [.finish]) := by
  rw [Serialises, List.filter_eq_self.mpr]
  intro item member
  rcases List.mem_append.mp member with inTree | last
  · exact List.all_eq_true.mp noNops item inTree
  · rw [List.mem_singleton.mp last]
    rfl

theorem memory_fits :
    (encode (memoryTree.items ++ [.finish])).length + cellStrings.length ≤ 2 ^ 20 := by
  decide +kernel

theorem controller_fits :
    (encode (controllerTree.items ++ [.finish])).length + cellStrings.length ≤ 2 ^ 20 := by
  decide +kernel

/-- The walk finds the memory in exactly the trees in which no other node is taken for it. -/
theorem finds_memory_iff (serialises : Serialises nodes items)
    (laid : Laid memory dtb structOffset stringsOffset items) :
    (∃ log, Returns (extractMemoryInfo memory dtb dtb) (log, nodes.memoryRegs.head?)) ↔
      Unmistaken nodes := by
  obtain ⟨log, _, returns, _⟩ := laid.walk serialises.ends
  rw [← serialises.scan_iff]
  constructor
  · intro found
    obtain ⟨other, found⟩ := found
    exact congrArg Prod.snd (returns.unique found)
  · intro same
    rw [← same]
    exact ⟨log, returns⟩

theorem finds_memory : ∃ log, Returns
    (extractMemoryInfo (treeBlob _ cellStrings memory_fits) dtbAddress dtbAddress)
    (log, some (0x80000000, 0x8000000)) := by
  have laid := treeBlob_laid memory_fits (by
    simp [memoryTree, Nodes.items, cellProps, rangeProp, regProperty, cellStrings, regName])
  have unmistaken : Unmistaken memoryTree := by
    intro value first
    cases first
  exact (finds_memory_iff (tree_serialises memoryTree (by decide)) laid).mpr unmistaken

/-- A `reg` property of the controller is taken for that of the memory. -/
theorem controller_taken :
    Serialises controllerTree (controllerTree.items ++ [.finish]) ∧
      Laid (treeBlob _ cellStrings controller_fits) dtbAddress 56
        (56 + (encode (controllerTree.items ++ [.finish])).length) (controllerTree.items ++ [.finish]) ∧
      ¬ ∃ log, Returns
        (extractMemoryInfo (treeBlob _ cellStrings controller_fits) dtbAddress dtbAddress)
        (log, controllerTree.memoryRegs.head?) := by
  have serialises := tree_serialises controllerTree (by decide)
  have laid := treeBlob_laid controller_fits (by
    simp [controllerTree, Nodes.items, cellProps, rangeProp, regProperty, cellStrings, regName])
  refine ⟨serialises, laid, fun found => ?_⟩
  obtain ⟨other, found⟩ := found
  obtain ⟨log, _, returns, _⟩ := laid.walk serialises.ends
  have unmistaken := serialises.scan_iff.mp (congrArg Prod.snd (returns.unique found))
  have taken := unmistaken (0x10000000, 0x1000) (by decide)
  exact absurd taken (by decide)

/-- Of such a tree `dtb_init` saves the base and the size of the memory, if it has one. -/
theorem dtbInit_memory {bootDtb : Nat} {info : MemoryInfo} (present : bootDtb ≠ 0)
    (magic : Word memory.image (uint64 (bootDtb + PHYSICAL_MEMORY_OFFSET)) FDT_MAGIC)
    (serialises : Serialises nodes items)
    (laid : Laid memory (uint64 (bootDtb + PHYSICAL_MEMORY_OFFSET)) structOffset stringsOffset items)
    (unmistaken : Unmistaken nodes) :
    Returns (dtbInit memory info bootDtb) (saved info nodes.memoryRegs.head?) := by
  obtain ⟨log, _, returns, _⟩ := laid.walk serialises.ends
  rw [serialises.scan_iff.mpr unmistaken] at returns
  exact dtbInit_returns present magic returns

end Ucore.Driver.Dtb
