import Jni2Hook.Code.ConstructorTrace
import Jni2Hook.Code.InsertionRoundTrip

/-!
# Typings through an insertion

A typing of a constructor is a typing of the constructor with nodes inserted behind its initialising call, once the
nodes are typed as well: every path through the new body is a path through the old one with detours.

* `InstructionList.Laid.instructionIndexAt_eq`: a position names its instruction.
* `Inserting.successors`: the old instructions go where they went, moved.
* `TraceTyping.insert`: the typing of the edited body.
-/

namespace Jni2Hook

open Lib

/-! ## Positions -/

/-- In code that is laid out, a position names its instruction. -/
theorem InstructionList.Laid.instructionIndexAt_eq {list : InstructionList} (hl : list.Laid) {j : Nat}
    (hj : j ≤ list.items.length) :
    instructionIndexAt list.items (list.start j) = if j < list.items.length then some j else none := by
  rw [instructionIndexAt, if_neg (by omega)]
  split
  · rename_i hlt
    refine List.findIdx?_eq_some_iff_getElem.mpr ⟨hlt, ?_, fun i hi => ?_⟩
    · rw [hl.offset_eq (List.getElem?_eq_getElem hlt)]
      exact decide_eq_true rfl
    · have := InstructionList.start_lt hi hj
      rw [hl.offset_eq (List.getElem?_eq_getElem (Nat.lt_trans hi hlt))]
      simp only [decide_eq_true_eq]
      omega
  · rename_i hge
    refine List.findIdx?_eq_none_iff.mpr fun node hmem => ?_
    obtain ⟨i, hi, rfl⟩ := List.getElem_of_mem hmem
    have : list.start i < list.start j := InstructionList.start_lt (by omega) hj
    rw [hl.offset_eq (List.getElem?_eq_getElem hi)]
    simp only [decide_eq_false_iff_not]
    omega

/-! ## Nodes that have moved -/

theorem executeSlots_of_same {cf : ClassFile} {node node' : Instruction} (hopcode : node'.opcode = node.opcode)
    (hlocal : node'.operand.localIndex = node.operand.localIndex)
    (hmember : node'.operand.memberIndex = node.operand.memberIndex)
    (hdimensions : node'.operand.dimensions = node.operand.dimensions) :
    executeSlots cf node' = executeSlots cf node := by
  funext work
  simp only [executeSlots, executeField, executeInvoke, hopcode, hlocal, hmember, hdimensions]

/-- A node with its targets moved, at another offset. -/
def Instruction.movedTo (f : Int → Int) (n : Nat) (node : Instruction) : Instruction :=
  { node.mapTargets f with offset := n }

section Moved

variable (cf : ClassFile) (f : Int → Int) (n : Nat) (node : Instruction)

theorem executeSlots_movedTo : executeSlots cf (node.movedTo f n) = executeSlots cf node := by
  obtain ⟨offset, opcode, wide, operand⟩ := node
  refine executeSlots_of_same ?_ ?_ ?_ ?_ <;> cases operand <;> rfl

theorem isInitializingCall_movedTo : isInitializingCall cf (node.movedTo f n) = isInitializingCall cf node := by
  obtain ⟨offset, opcode, wide, operand⟩ := node
  cases operand <;> rfl

theorem memberIndex_movedTo : (node.movedTo f n).operand.memberIndex = node.operand.memberIndex := by
  obtain ⟨offset, opcode, wide, operand⟩ := node
  cases operand <;> rfl

theorem flowsOn_movedTo : flowsOn (node.movedTo f n) = flowsOn node := by
  obtain ⟨offset, opcode, wide, operand⟩ := node
  cases operand <;> rfl

theorem initializes_none_movedTo {stack : List UInt8} :
    initializes cf (node.movedTo f n) stack = none ↔ initializes cf node stack = none := by
  unfold initializes
  rw [isInitializingCall_movedTo]
  cases isInitializingCall cf node with
  | none => simp
  | some arguments =>
    dsimp only
    split <;> simp

end Moved

theorem length_allTargets_mapTargets (f : Int → Int) (operand : Operand) :
    (operand.mapTargets f).allTargets.length = operand.allTargets.length := by
  cases operand with
  | tableSwitch d low high targets =>
    simp only [Operand.mapTargets, Operand.allTargets, List.length_cons, List.length_append, List.length_map,
      List.length_take, List.length_drop]
    omega
  | _ => simp [Operand.mapTargets, Operand.allTargets]

theorem Instruction.Encodable.switchEntries {node : Instruction} (h : node.Encodable) {d low high : Int}
    {targets : List Int} (hoperand : node.operand = .tableSwitch d low high targets)
    (hsmall : targets.length ≤ 0xFFFF) :
    instructionSwitchEntries (.tableSwitch d low high targets) = targets.length := by
  have hfits := h.fits
  rw [hoperand] at hfits
  obtain ⟨-, -, -, hle, hlen, -⟩ := hfits
  rw [instructionSwitchEntries, if_neg (by omega), if_neg (by unfold jvmMaxCodeLength; omega)]
  omega

theorem Instruction.Encodable.allTargets_eq {node : Instruction} (h : node.Encodable)
    (hsmall : node.operand.allTargets.length ≤ 0x10000) : node.operand.allTargets = node.operand.targets := by
  cases hoperand : node.operand with
  | tableSwitch d low high targets =>
    rw [hoperand, Operand.allTargets, List.length_cons] at hsmall
    rw [Operand.allTargets, Operand.targets, h.switchEntries hoperand (by omega), List.take_length]
  | _ => rfl

theorem Instruction.Encodable.allTargets_mapTargets {node : Instruction} (h : node.Encodable)
    (hsmall : node.operand.allTargets.length ≤ 0x10000) (f : Int → Int) :
    (node.operand.mapTargets f).allTargets = node.operand.targets.map f := by
  cases hoperand : node.operand with
  | tableSwitch d low high targets =>
    rw [hoperand, Operand.allTargets, List.length_cons] at hsmall
    rw [Operand.mapTargets, Operand.allTargets, Operand.targets, h.switchEntries hoperand (by omega)]
    simp
  | _ => simp [Operand.mapTargets, Operand.allTargets, Operand.targets]

/-! ## The nodes of the edited code -/

theorem start_succ {list : InstructionList} {i : Nat} {node : Instruction} (h : list.items[i]? = some node) :
    list.start (i + 1) = list.start i + node.size (list.start i) := by
  obtain ⟨hi, hnode⟩ := List.getElem?_eq_some_iff.mp h
  unfold InstructionList.start startOf
  rw [List.take_succ_eq_append_getElem hi, extent_append, hnode]
  rfl

namespace Inserting

variable {editor : CodeEditor} {at_ : Nat} {nodes : List Instruction} (h : Inserting editor at_ nodes)

include h

/-- A node of the edited code is an old one that has moved, or an inserted one. -/
theorem getElem?_insert {i' : Nat} {node' : Instruction}
    (hnode' : (insertNodes editor at_ nodes).instructions.items[i']? = some node') :
    (∃ i node, i' = shiftInstruction at_ nodes.length i ∧ editor.instructions.items[i]? = some node ∧
      node' = node.movedTo (moveRef editor at_ nodes (shiftAfter at_ nodes.length))
        ((insertNodes editor at_ nodes).instructions.start i')) ∨
    ∃ k node n, i' = at_ + k ∧ nodes[k]? = some node ∧ node' = { node with offset := n } := by
  have hoffset := h.laid_insert.1.offset_eq hnode'
  have hforget := map_layoutFrom (f := fun node : Instruction => { node with offset := 0 }) (fun _ _ => rfl) 0
    (movedItems editor at_ nodes)
  have hmoved : ((movedItems editor at_ nodes).map fun node : Instruction => { node with offset := 0 })[i']? =
      some { node' with offset := 0 } := by
    rw [← hforget]
    rw [h.instructions_eq] at hnode'
    rw [List.getElem?_map, hnode']
    rfl
  rw [List.getElem?_map] at hmoved
  obtain ⟨old, hold, hsame⟩ := Option.map_eq_some_iff.mp hmoved
  have hnode : node' = { old with offset := node'.offset } := by
    obtain ⟨offset, opcode, wide, operand⟩ := node'
    obtain ⟨offset', opcode', wide', operand'⟩ := old
    cases hsame
    rfl
  have hpoint := h.point
  rw [movedItems, spliceAt] at hold
  have hlen : ((editor.instructions.items.map
      (·.mapTargets (moveRef editor at_ nodes (shiftAfter at_ nodes.length)))).take at_).length = at_ := by
    simp [hpoint]
  by_cases hbefore : i' < at_
  · rw [List.getElem?_append_left (by omega), List.getElem?_take_of_lt hbefore, List.getElem?_map] at hold
    obtain ⟨node, hitem, rfl⟩ := Option.map_eq_some_iff.mp hold
    refine .inl ⟨i', node, by rw [shiftInstruction, if_pos hbefore], hitem, ?_⟩
    rw [hnode, hoffset]
    rfl
  · rw [List.getElem?_append_right (by omega), hlen] at hold
    by_cases hinserted : i' - at_ < nodes.length
    · rw [List.getElem?_append_left hinserted] at hold
      exact .inr ⟨i' - at_, old, node'.offset, by omega, hold, hnode⟩
    · rw [List.getElem?_append_right (by omega), List.getElem?_drop, List.getElem?_map] at hold
      obtain ⟨node, hitem, rfl⟩ := Option.map_eq_some_iff.mp hold
      refine .inl ⟨at_ + (i' - at_ - nodes.length), node, ?_, hitem, ?_⟩
      · rw [shiftInstruction, if_neg (by omega)]
        omega
      · rw [hnode, hoffset]
        rfl

/-- An instruction of the edited code has no more targets than there are bytes. -/
theorem allTargets_length {i' : Nat} {node' : Instruction}
    (hnode' : (insertNodes editor at_ nodes).instructions.items[i']? = some node') :
    node'.operand.allTargets.length ≤ 0x10000 := by
  obtain ⟨hl, hcode⟩ := h.laid_insert
  have hsize := start_succ hnode'
  have hstart := hl.start_le (j := i' + 1)
  rw [Instruction.size] at hsize
  obtain ⟨offset, opcode, wide, operand⟩ := node'
  cases operand <;>
    simp only [Operand.size, Operand.allTargets, List.length_cons, List.length_map,
      List.length_nil] at hsize ⊢ <;> omega

/-- The old instructions go where they went, moved. -/
theorem successors {i t' : Nat} {node : Instruction} (hat : at_ < editor.instructions.items.length)
    (hnode : editor.instructions.items[i]? = some node)
    (hnode' : (insertNodes editor at_ nodes).instructions.items[shiftInstruction at_ nodes.length i]? =
      some (node.movedTo (moveRef editor at_ nodes (shiftAfter at_ nodes.length))
        ((insertNodes editor at_ nodes).instructions.start (shiftInstruction at_ nodes.length i))))
    (ht' : t' ∈ traceSuccessors (insertNodes editor at_ nodes).instructions.items (shiftInstruction at_ nodes.length i)
      (node.movedTo (moveRef editor at_ nodes (shiftAfter at_ nodes.length))
        ((insertNodes editor at_ nodes).instructions.start (shiftInstruction at_ nodes.length i)))) :
    ∃ t, t' = shiftPosition at_ nodes.length t ∧ t ∈ traceSuccessors editor.instructions.items i node := by
  have hi := (List.getElem?_eq_some_iff.mp hnode).1
  rcases mem_traceSuccessors.mp ht' with ⟨v', hv', hindex⟩ | ⟨hflows, hlt, rfl⟩
  · have hencodable := h.laid.encodable node (List.mem_of_getElem? hnode)
    have hsmall : node.operand.allTargets.length ≤ 0x10000 := by
      have hle := h.allTargets_length hnode'
      rwa [Instruction.movedTo, Instruction.mapTargets, length_allTargets_mapTargets] at hle
    rw [Instruction.movedTo, Instruction.mapTargets, hencodable.allTargets_mapTargets hsmall] at hv'
    obtain ⟨v, hv, rfl⟩ := List.mem_map.mp hv'
    -- the target is the position of an instruction, and is still that position
    obtain ⟨j, hj, -, rfl⟩ := h.names_of_mem (by
      simp only [CodeEditor.refs, List.mem_append, List.mem_flatMap]
      exact .inl (.inl (.inl (.inl (.inl (.inl ⟨node, List.mem_of_getElem? hnode, hv⟩))))))
    rw [h.moveRef_position hj, h.laid_insert.1.instructionIndexAt_eq (by
      rw [length_insertNodes]; exact shiftPosition_le hj), length_insertNodes] at hindex
    split at hindex
    · rename_i hlt
      cases hindex
      have hjn : j < editor.instructions.items.length := by
        unfold shiftPosition at hlt
        split at hlt <;> omega
      refine ⟨j, rfl, mem_traceSuccessors.mpr (.inl ⟨editor.instructions.start j, ?_, ?_⟩)⟩
      · rw [hencodable.allTargets_eq hsmall]
        exact hv
      · rw [h.laid.instructionIndexAt_eq hj, if_pos hjn]
    · cases hindex
  · rw [flowsOn_movedTo] at hflows
    rw [length_insertNodes] at hlt
    refine ⟨i + 1, ?_, mem_traceSuccessors.mpr (.inr ⟨hflows, ?_, rfl⟩)⟩
    · unfold shiftInstruction shiftPosition
      split <;> split <;> omega
    · unfold shiftInstruction at hlt
      split at hlt <;> omega

end Inserting

/-! ## The typing -/

/-- A typing of straight-line nodes: `mid k` before node `k`. -/
structure BlockTyping (cf : ClassFile) (nodes : List Instruction) (mid : Nat → Option TraceSlots) : Prop where
  step : ∀ {k : Nat} {node s}, nodes[k]? = some node → mid k = some s →
    ∀ m work, executeSlots cf node ⟨s.locals, s.stack, m⟩ = some work → ∃ s', mid (k + 1) = some s' ∧ work.slots.Le s'
  resolved : ∀ {k : Nat} {node}, nodes[k]? = some node → readsMember node = true →
    (memberDescriptor cf.constantPool node.operand.memberIndex).isSome = true
  noCall : ∀ {k : Nat} {node}, nodes[k]? = some node → isInitializingCall cf node = none

/-- The typing of a body with typed nodes inserted. -/
def insertTypes (types : Nat → Option TraceSlots) (at_ count : Nat) (mid : Nat → Option TraceSlots) :
    Nat → Option TraceSlots :=
  fun i => if i < at_ then types i else if i ≤ at_ + count then mid (i - at_) else types (i - count)

section InsertTypes

variable {types mid : Nat → Option TraceSlots} {at_ count : Nat}

theorem insertTypes_shiftPosition (hfirst : mid 0 = types at_) (t : Nat) :
    insertTypes types at_ count mid (shiftPosition at_ count t) = types t := by
  unfold insertTypes shiftPosition
  rcases Nat.lt_trichotomy t at_ with hlt | rfl | hgt
  · rw [if_pos (Nat.le_of_lt hlt), if_pos hlt]
  · rw [if_pos (Nat.le_refl t), if_neg (by omega), if_pos (by omega), Nat.sub_self, hfirst]
  · rw [if_neg (show ¬t ≤ at_ by omega), if_neg (by omega), if_neg (by omega), Nat.add_sub_cancel]

theorem insertTypes_shiftInstruction (hlast : mid count = types at_) (i : Nat) :
    insertTypes types at_ count mid (shiftInstruction at_ count i) = types i := by
  unfold insertTypes shiftInstruction
  rcases Nat.lt_trichotomy i at_ with hlt | rfl | hgt
  · rw [if_pos hlt, if_pos hlt]
  · rw [if_neg (Nat.lt_irrefl i), if_neg (by omega), if_pos (by omega), Nat.add_sub_cancel_left, hlast]
  · rw [if_neg (show ¬i < at_ by omega), if_neg (by omega), if_neg (by omega), Nat.add_sub_cancel]

theorem insertTypes_inserted {k : Nat} (hk : k ≤ count) : insertTypes types at_ count mid (at_ + k) = mid k := by
  unfold insertTypes
  rw [if_neg (by omega), if_pos (by omega), Nat.add_sub_cancel_left]

end InsertTypes

/-- An inserted node flows on to the next one. -/
theorem flows_of_straight {node : Instruction} (he : node.Encodable) (hs : node.isStraightLine = true)
    {items : List Instruction}
    {i t n : Nat} (ht : t ∈ traceSuccessors items i { node with offset := n }) : t = i + 1 := by
  have hnone : node.operand.allTargets = [] := by
    have htargets := (he.straight hs).1
    obtain ⟨offset, opcode, wide, operand⟩ := node
    cases operand <;> first | rfl | cases htargets
  rcases mem_traceSuccessors.mp ht with ⟨v, hv, -⟩ | ⟨-, -, rfl⟩
  · rw [hnone] at hv
    cases hv
  · rfl

theorem TraceTyping.insert {cf : ClassFile} {editor : CodeEditor} {maxLocals maxStack call at_ : Nat}
    {nodes : List Instruction}
    {types mid : Nat → Option TraceSlots} (ht : TraceTyping cf editor.instructions maxLocals maxStack call types)
    (h : Inserting editor at_ nodes) (hcall : call < at_) (hat : at_ < editor.instructions.items.length)
    (hblock : BlockTyping cf nodes mid) (hfirst : mid 0 = types at_) (hlast : mid nodes.length = types at_) :
    TraceTyping cf (insertNodes editor at_ nodes).instructions maxLocals maxStack call
      (insertTypes types at_ nodes.length mid) := by
  have htypes : insertTypes types at_ nodes.length mid 0 = types 0 := by
    unfold insertTypes
    rw [if_pos (by omega)]
  refine ⟨?_, ?_, ?_, ?_, ?_, ?_⟩
  · rw [htypes]
    exact ht.entry
  · intro i' node' s hnode' htype hnone m work hm hwork t' ht'
    rcases h.getElem?_insert hnode' with ⟨i, node, rfl, hnode, rfl⟩ | ⟨k, node, n, rfl, hnode, rfl⟩
    · rw [insertTypes_shiftInstruction hlast] at htype
      rw [executeSlots_movedTo] at hwork
      obtain ⟨t, rfl, hsucc⟩ := h.successors hat hnode hnode' ht'
      rw [insertTypes_shiftPosition hfirst]
      exact ht.step hnode htype ((initializes_none_movedTo ..).mp hnone) m work hm hwork t hsucc
    · have hk := (List.getElem?_eq_some_iff.mp hnode).1
      have he := h.encodable node (List.mem_of_getElem? hnode)
      have hs := h.straight node (List.mem_of_getElem? hnode)
      rw [insertTypes_inserted (Nat.le_of_lt hk)] at htype
      obtain rfl := flows_of_straight he hs ht'
      rw [Nat.add_assoc, insertTypes_inserted hk]
      exact hblock.step hnode htype m work hwork
  · intro i' node' s hnode' htype hnone hreads
    rcases h.getElem?_insert hnode' with ⟨i, node, rfl, hnode, rfl⟩ | ⟨k, node, n, rfl, hnode, rfl⟩
    · rw [insertTypes_shiftInstruction hlast] at htype
      rw [memberIndex_movedTo]
      exact ht.resolved hnode htype ((initializes_none_movedTo ..).mp hnone) hreads
    · have hresolved := hblock.resolved hnode hreads
      exact hresolved
  · intro i' node' s arguments hnode' htype hcall'
    rcases h.getElem?_insert hnode' with ⟨i, node, rfl, hnode, rfl⟩ | ⟨k, node, n, rfl, hnode, rfl⟩
    · rw [insertTypes_shiftInstruction hlast] at htype
      rw [isInitializingCall_movedTo] at hcall'
      exact ht.uniform hnode htype hcall'
    · have hno := hblock.noCall hnode
      replace hno : isInitializingCall cf { node with offset := n } = none := hno
      rw [hno] at hcall'
      cases hcall'
  · intro i' node' s a hnode' htype hsome
    rcases h.getElem?_insert hnode' with ⟨i, node, rfl, hnode, rfl⟩ | ⟨k, node, n, rfl, hnode, rfl⟩
    · rw [insertTypes_shiftInstruction hlast] at htype
      cases hinit : initializes cf node s.stack with
      | none =>
        rw [(initializes_none_movedTo ..).mpr hinit] at hsome
        cases hsome
      | some b =>
        obtain rfl := ht.only hnode htype hinit
        rw [shiftInstruction, if_pos hcall]
    · obtain ⟨arguments, hcall', -⟩ := initializes_eq_some.mp hsome
      have hno := hblock.noCall hnode
      replace hno : isInitializingCall cf { node with offset := n } = none := hno
      rw [hno] at hcall'
      cases hcall'
  · rw [length_insertNodes]
    omega

end Jni2Hook
