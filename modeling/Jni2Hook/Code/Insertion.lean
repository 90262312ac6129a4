import Jni2Hook.Code.Body

/-!
# Insertion moves every reference correctly

`code_editor_insert` turns offsets into indices, shifts the indices by two rules, lays the code out anew and turns the
indices back into offsets. In the view with indices (`CodeEditor.resolve`) all that is left of this is the shift:

* `resolve_insert`: the view of the edited editor is the old view with the nodes inserted (`Body.insert`);
* `coherent_insert`: the edited editor is again one that is loaded as it is stored;
* `insertion_moves_references`: both together, through a store and a reload.

On the way the references stand in 16-bit fields, first as indices. What keeps them there is the limit on the code
length: the code that is stored has at least one byte for every index.
-/

namespace Jni2Hook

open Lib

/-! ## The abstract insertion -/

/-- A position keeps its index up to the point, so that the inserted code takes it over. -/
def shiftPosition (at_ count j : Nat) : Nat := if j ≤ at_ then j else j + count

/-- An instruction keeps its index before the point and moves with the code from the point on. -/
def shiftInstruction (at_ count j : Nat) : Nat := if j < at_ then j else j + count

/-- An instruction without targets. -/
def Instruction.plain {ρ : Type} (node : Instruction) : BodyInstruction ρ :=
  ⟨node.opcode, node.wide, node.operand, []⟩

/-- A body with nodes inserted: the references move, and nothing else changes but the depth of the stack. -/
def Body.insert (b : Body (Option Nat)) (at_ : Nat) (nodes : List Instruction) (extraStack : UInt16) :
    Body (Option Nat) :=
  { (b.map (Option.map (shiftPosition at_ nodes.length)) (Option.map (shiftInstruction at_ nodes.length))).splice at_
      (nodes.map (·.plain)) with
    maxStack := if nodes.isEmpty then b.maxStack else b.maxStack + extraStack }

/-- No branch, switch, return or throw. -/
def Instruction.isStraightLine (node : Instruction) : Bool :=
  match instructionKindOf node.opcode with
  | .branch | .branchWide | .tableSwitch | .lookupSwitch => false
  | _ => node.opcode ∉ [Opc.ret, Opc.ireturn, Opc.lreturn, Opc.freturn, Opc.dreturn, Opc.areturn,
      Opc.return_, Opc.athrow]

theorem shiftAfter_natCast (at_ count j : Nat) : shiftAfter at_ count j = shiftPosition at_ count j := by
  unfold shiftAfter shiftPosition
  split <;> split <;> omega

theorem shiftAfter_zero (at_ count : Nat) : shiftAfter at_ count 0 = 0 := by
  rw [show (0 : Int) = (0 : Nat) from rfl, shiftAfter_natCast, shiftPosition, if_pos (Nat.zero_le _)]

theorem shiftWith_natCast (at_ count j : Nat) : shiftWith at_ count j = shiftInstruction at_ count j := by
  unfold shiftWith shiftInstruction
  split <;> split <;> omega

theorem shiftPosition_le {at_ count j n : Nat} (h : j ≤ n) : shiftPosition at_ count j ≤ n + count := by
  unfold shiftPosition
  split <;> omega

theorem shiftInstruction_le {at_ count j n : Nat} (h : j ≤ n) : shiftInstruction at_ count j ≤ n + count := by
  unfold shiftInstruction
  split <;> omega

theorem Instruction.Encodable.straight {node : Instruction} (h : node.Encodable) (hs : node.isStraightLine = true) :
    node.operand.targets = [] ∧ ∀ f, node.operand.mapTargets f = node.operand := by
  unfold Instruction.isStraightLine at hs
  rw [← h.kind] at hs
  obtain ⟨offset, opcode, wide, operand⟩ := node
  cases operand <;> first | exact ⟨rfl, fun f => rfl⟩ | cases hs

theorem Instruction.Encodable.body_straight {node : Instruction} (h : node.Encodable)
    (hs : node.isStraightLine = true) :
    node.body = node.plain := by
  obtain ⟨ht, hm⟩ := h.straight hs
  simp [Instruction.body, Instruction.plain, Operand.blank, ht, hm]

/-! ## Positions of a list that is laid out -/

/-- The position of instruction `j`; the end of the code for the index behind the last. -/
def InstructionList.start (list : InstructionList) (j : Nat) : Nat := startOf Instruction.size 0 list.items j

theorem offsets_placeFrom : ∀ (n : Nat) (items : List Instruction) (j : Nat), j ≤ items.length →
    ((placeFrom n items).map (·.offset) ++ [extent Instruction.size n items])[j]? =
    some (startOf Instruction.size n items j)
  | n, [], j, h => by
    obtain rfl : j = 0 := by simpa using h
    rfl
  | n, node :: rest, 0, _ => rfl
  | n, node :: rest, j + 1, h => by
    rw [startOf_cons_succ, ← offsets_placeFrom (n + node.size n) rest j (by simpa using h)]
    rfl

theorem InstructionList.start_lt {list : InstructionList} {i j : Nat} (hij : i < j) (hj : j ≤ list.items.length) :
    list.start i < list.start j := startOf_lt Instruction.size_pos hij hj

theorem InstructionList.start_mono (list : InstructionList) {i j : Nat} (h : i ≤ j) : list.start i ≤ list.start j :=
  startOf_mono h

section Laid

variable {list : InstructionList} (hl : list.Laid)

include hl

theorem InstructionList.Laid.offsets {j : Nat} (hj : j ≤ list.items.length) :
    (list.items.map (·.offset) ++ [list.codeLength])[j]? = some (list.start j) := by
  have := offsets_placeFrom 0 list.items j hj
  rwa [hl.placed, hl.stop] at this

theorem InstructionList.Laid.start_length : list.start list.items.length = list.codeLength := by
  rw [InstructionList.start, startOf_length, hl.stop]

theorem InstructionList.Laid.offset_eq {j : Nat} {node : Instruction} (h : list.items[j]? = some node) :
    node.offset = list.start j := by
  have hj := (List.getElem?_eq_some_iff.mp h).1
  have := hl.offsets (Nat.le_of_lt hj)
  rw [List.getElem?_append_left (by simpa using hj), List.getElem?_map, h] at this
  simpa using this

/-- An offset names the instruction that starts there. -/
theorem InstructionList.Laid.names_iff {v : Int} {j : Nat} :
    list.names v = some j ↔ j ≤ list.items.length ∧ v = list.start j := by
  have get {i : Nat} (hi : i ≤ list.items.length) :
      (list.items.map (fun node => (node.offset : Int)) ++ [(list.codeLength : Int)])[i]? =
        some (list.start i : Int) := by
    have := congrArg (Option.map fun n : Nat => (n : Int)) (hl.offsets hi)
    simpa [← List.getElem?_map, Function.comp_def] using this
  have len : (list.items.map (fun node => (node.offset : Int)) ++ [(list.codeLength : Int)]).length =
      list.items.length + 1 := by simp
  have getElem {i : Nat} (hi : i < (list.items.map (fun node => (node.offset : Int)) ++
      [(list.codeLength : Int)]).length) : (list.items.map (fun node => (node.offset : Int)) ++
        [(list.codeLength : Int)])[i] = (list.start i : Int) := by
    have := get (i := i) (by omega)
    rw [List.getElem?_eq_getElem hi] at this
    exact Option.some.inj this
  rw [InstructionList.names, List.idxOf?, List.findIdx?_eq_some_iff_getElem]
  constructor
  · rintro ⟨hj, heq, -⟩
    rw [getElem hj, beq_iff_eq] at heq
    exact ⟨by omega, heq.symm⟩
  · rintro ⟨hj, rfl⟩
    refine ⟨by omega, by rw [getElem, beq_self_eq_true], fun i hi => ?_⟩
    rw [getElem]
    have := InstructionList.start_lt hi hj
    simp only [beq_iff_eq]
    omega

theorem InstructionList.Laid.start_le {j : Nat} : list.start j ≤ list.codeLength := by
  rw [← hl.stop]
  exact startOf_le_extent _ _ _

theorem InstructionList.Laid.length_le : list.items.length ≤ list.codeLength := by
  have := add_length_le_extent Instruction.size_pos 0 list.items
  rw [hl.stop] at this
  omega

/-- What `offset_to_index` finds is what the offset names. -/
theorem InstructionList.Laid.names_of_offsetToIndex {v : Int} (h : 0 ≤ offsetToIndex list v) :
    ∃ j, list.names v = some j := by
  rw [offsetToIndex] at h
  split at h
  · omega
  · split at h
    · exact ⟨list.items.length, hl.names_iff.mpr ⟨Nat.le_refl _, by rw [hl.start_length]; assumption⟩⟩
    · split at h
      · rename_i i hi
        obtain ⟨hlt, heq, -⟩ := List.findIdx?_eq_some_iff_getElem.mp hi
        refine ⟨i, hl.names_iff.mpr ⟨Nat.le_of_lt hlt, ?_⟩⟩
        rw [← hl.offset_eq (List.getElem?_eq_getElem hlt)]
        exact (of_decide_eq_true heq).symm
      · omega

theorem InstructionList.Laid.offsetToIndex_eq {v : Int} {j : Nat} (h : list.names v = some j)
    (hlen : list.items.length < 2 ^ 31) : offsetToIndex list v = j := by
  obtain ⟨hj, rfl⟩ := hl.names_iff.mp h
  have fits {k : Nat} (hk : k ≤ list.items.length) : wrapI4 k = k :=
    wrapI4_of_fits ⟨by omega, by omega⟩
  rw [offsetToIndex, if_neg (by omega)]
  split
  · rename_i heq
    rw [fits (Nat.le_refl _)]
    have : list.start j = list.start list.items.length := by rw [hl.start_length]; omega
    rw [startOf_inj Instruction.size_pos hj (Nat.le_refl _) this]
  · rename_i hne
    have hlt : j < list.items.length := by
      rcases Nat.lt_or_eq_of_le hj with hlt | rfl
      · exact hlt
      · exact absurd (by rw [hl.start_length]) hne
    have find : list.items.findIdx? (fun node => node.offset = (list.start j : Int)) = some j := by
      refine List.findIdx?_eq_some_iff_getElem.mpr ⟨hlt, ?_, fun i hi => ?_⟩
      · rw [hl.offset_eq (List.getElem?_eq_getElem hlt)]
        exact decide_eq_true rfl
      · have := InstructionList.start_lt hi hj
        rw [hl.offset_eq (List.getElem?_eq_getElem (Nat.lt_trans hi hlt))]
        simp only [decide_eq_true_eq]
        omega
    rw [find]
    exact fits hj

theorem InstructionList.Laid.indexToOffset_eq {j : Nat} (hj : j ≤ list.items.length)
    (hlen : list.codeLength < 2 ^ 31) : indexToOffset list j = list.start j := by
  have fits : wrapI4 (list.start j) = list.start j := by
    have := hl.start_le (j := j)
    exact wrapI4_of_fits ⟨by omega, by omega⟩
  rw [indexToOffset, if_neg (by omega), Int.toNat_natCast]
  split
  · rename_i hnone
    obtain rfl : j = list.items.length := by
      have := List.getElem?_eq_none_iff.mp hnone
      omega
    rw [← hl.start_length, fits]
  · rename_i node hnode
    rw [hl.offset_eq hnode, fits]

end Laid

/-! ## Targets do not matter for the layout -/

theorem Instruction.mapTargets_mapTargets (f g : Int → Int) (node : Instruction) :
    (node.mapTargets f).mapTargets g = node.mapTargets (g ∘ f) := by
  simp [Instruction.mapTargets]

theorem instructionSwitchEntries_mapTargets (f : Int → Int) (operand : Operand) :
    instructionSwitchEntries (operand.mapTargets f) = instructionSwitchEntries operand := by
  cases operand <;> simp [Operand.mapTargets, instructionSwitchEntries]

theorem instructionLengthAt_mapTargets (f : Int → Int) (node : Instruction) (n : Nat) :
    instructionLengthAt (node.mapTargets f) n = instructionLengthAt node n := by
  have entries := instructionSwitchEntries_mapTargets f node.operand
  obtain ⟨offset, opcode, wide, operand⟩ := node
  cases operand with
  | tableSwitch d low high targets =>
    simp only [Instruction.mapTargets, instructionLengthAt, Operand.mapTargets] at entries ⊢
    rw [entries]
  | lookupSwitch d pairs =>
    simp only [Instruction.mapTargets, instructionLengthAt, Operand.mapTargets] at entries ⊢
    rw [entries]
  | _ => rfl

theorem Operand.size_mapTargets (f : Int → Int) (operand : Operand) (opcode : UInt8) (wide : Bool) (m : Nat) :
    (operand.mapTargets f).size opcode wide m = operand.size opcode wide m := by
  cases operand with
  | tableSwitch d low high targets =>
    simp only [Operand.mapTargets, Operand.size, List.length_append, List.length_map,
      List.length_take, List.length_drop]
    omega
  | lookupSwitch d pairs => simp [Operand.mapTargets, Operand.size]
  | _ => rfl

theorem Instruction.size_mapTargets (f : Int → Int) (node : Instruction) (n : Nat) :
    (node.mapTargets f).size n = node.size n :=
  congrArg ((encodeOpcode node).length + ·) (node.operand.size_mapTargets f _ _ _)

theorem layoutFrom_mapTargets (f : Int → Int) : ∀ (n : Nat) (items : List Instruction),
    layoutFrom n (items.map (·.mapTargets f)) = ((layoutFrom n items).1.map (·.mapTargets f), (layoutFrom n items).2)
  | _, [] => rfl
  | n, node :: rest => by
    simp only [List.map_cons, layoutFrom, instructionLengthAt_mapTargets, layoutFrom_mapTargets f _ rest]
    rfl

/-- Laying out changes nothing but the offsets. -/
theorem map_layoutFrom {α : Type} {f : Instruction → α} (hf : ∀ node n, f { node with offset := n } = f node) :
    ∀ (n : Nat) (items : List Instruction), (layoutFrom n items).1.map f = items.map f
  | _, [] => rfl
  | n, node :: rest => by
    simp only [layoutFrom, List.map_cons, hf, map_layoutFrom hf]

theorem length_layoutFrom (n : Nat) (items : List Instruction) : (layoutFrom n items).1.length = items.length := by
  have := congrArg List.length (map_layoutFrom (f := fun _ => ()) (fun _ _ => rfl) n items)
  simpa using this

theorem encodable_offset {node : Instruction} {n : Nat} (h : node.Encodable) :
    ({ node with offset := n } : Instruction).Encodable := ⟨h.defined, h.notWide, h.kind, h.widenable, h.fits⟩

theorem encodable_layoutFrom : ∀ (n : Nat) {items : List Instruction}, (∀ node ∈ items, node.Encodable) →
    ∀ node ∈ (layoutFrom n items).1, node.Encodable
  | _, [], h => h
  | n, node :: rest, h => by
    intro x hx
    rcases List.mem_cons.mp hx with rfl | hx
    · exact encodable_offset (h node List.mem_cons_self)
    · exact encodable_layoutFrom _ (fun y hy => h y (List.mem_cons_of_mem node hy)) x hx

theorem Instruction.Encodable.mapTargets {node : Instruction} {f : Int → Int} (h : node.Encodable)
    (hf : ∀ t ∈ node.operand.targets, FitsI4 (f t)) : (node.mapTargets f).Encodable := by
  obtain ⟨hd, hn, hk, hw, hfit⟩ := h
  obtain ⟨offset, opcode, wide, operand⟩ := node
  cases operand with
  | branch target => exact ⟨hd, hn, hk, hw, hf target List.mem_cons_self⟩
  | branchWide target => exact ⟨hd, hn, hk, hw, hf target List.mem_cons_self⟩
  | tableSwitch d low high targets =>
    obtain ⟨_, h₂, h₃, h₄, h₅, h₆⟩ := hfit
    refine ⟨hd, hn, hk, hw, hf d List.mem_cons_self, h₂, h₃, h₄, ?_, fun t ht => ?_⟩
    · simp only [List.length_append, List.length_map, List.length_take, List.length_drop]
      omega
    · rcases List.mem_append.mp ht with ht | ht
      · obtain ⟨t', ht', rfl⟩ := List.mem_map.mp ht
        exact hf t' (List.mem_cons_of_mem d ht')
      · exact h₆ t (List.mem_of_mem_drop ht)
  | lookupSwitch d pairs =>
    obtain ⟨_, h₂, h₃⟩ := hfit
    refine ⟨hd, hn, hk, hw, hf d List.mem_cons_self, by simpa using h₂, fun q hq => ?_⟩
    obtain ⟨q', hq', rfl⟩ := List.mem_map.mp hq
    exact ⟨(h₃ q' hq').1, hf q'.target (List.mem_cons_of_mem d (List.mem_map_of_mem hq'))⟩
  | _ => exact ⟨hd, hn, hk, hw, hfit⟩

/-! ## The steps of the insertion -/

/-- Offsets to indices. -/
def toIndex (list : InstructionList) : Int → Int := applyReference (offsetToIndex list)

/-- Indices to offsets. -/
def toOffset (list : InstructionList) : Int → Int := applyReference (indexToOffset list)

/-- The editor with indices for offsets, spliced and shifted, before the layout. -/
def shiftedEditor (editor : CodeEditor) (at_ : Nat) (nodes : List Instruction) : CodeEditor :=
  let indexed := editor.mapRefs (toIndex editor.instructions) (toIndex editor.instructions)
  let spliced := { indexed with
    instructions := { indexed.instructions with items := spliceAt indexed.instructions.items at_ nodes } }
  spliced.mapRefs (shiftAfter at_ nodes.length) (shiftWith at_ nodes.length)

/-- The editor laid out anew, still with indices. -/
def placedEditor (editor : CodeEditor) (at_ : Nat) (nodes : List Instruction) : CodeEditor :=
  let shifted := shiftedEditor editor at_ nodes
  { shifted with instructions := instructionListRecomputeOffsets shifted.instructions }

theorem insertNodes_eq (editor : CodeEditor) (at_ : Nat) (nodes : List Instruction) :
    insertNodes editor at_ nodes = (placedEditor editor at_ nodes).mapRefs
      (toOffset (placedEditor editor at_ nodes).instructions)
        (toOffset (placedEditor editor at_ nodes).instructions) := rfl

/-- What a reference becomes. -/
def moveRef (editor : CodeEditor) (at_ : Nat) (nodes : List Instruction) (shift : Int → Int) : Int → Int :=
  toOffset (placedEditor editor at_ nodes).instructions ∘ (shift ∘ toIndex editor.instructions)

/-- Nodes that can be put before instruction `at_`: every reference of the editor names an instruction, a target among
the nodes is left on the first instruction of the code, and every index of the new code fits a `u2`. -/
structure Spliceable (editor : CodeEditor) (at_ : Nat) (nodes : List Instruction) : Prop where
  laid : editor.instructions.Laid
  point : at_ ≤ editor.instructions.items.length
  encodable : ∀ node ∈ nodes, node.Encodable
  origin : ∀ node ∈ nodes, ∀ t ∈ node.operand.targets, t = 0
  named : ∀ v ∈ editor.refs, 0 ≤ offsetToIndex editor.instructions v
  bound : editor.instructions.items.length + nodes.length ≤ 0xFFFF

/-- An insertion that went through: the new code is within the limit. -/
structure Splicing (editor : CodeEditor) (at_ : Nat) (nodes : List Instruction) : Prop
    extends Spliceable editor at_ nodes where
  fits : extent Instruction.size 0 (spliceAt editor.instructions.items at_ nodes) ≤ 0xFFFF

/-- An insertion of straight-line code that went through. -/
structure Inserting (editor : CodeEditor) (at_ : Nat) (nodes : List Instruction) : Prop
    extends Splicing editor at_ nodes where
  straight : ∀ node ∈ nodes, node.isStraightLine = true

/-- The nodes of the edited code, before their layout. -/
def movedItems (editor : CodeEditor) (at_ : Nat) (nodes : List Instruction) : List Instruction :=
  spliceAt (editor.instructions.items.map (·.mapTargets (moveRef editor at_ nodes (shiftAfter at_ nodes.length))))
    at_ nodes

theorem shiftedEditor_items (editor : CodeEditor) (at_ : Nat) (nodes : List Instruction) :
    (shiftedEditor editor at_ nodes).instructions.items =
      (spliceAt (editor.instructions.items.map (·.mapTargets (toIndex editor.instructions))) at_ nodes).map
        (·.mapTargets (shiftAfter at_ nodes.length)) := rfl

theorem length_insertNodes (editor : CodeEditor) (at_ : Nat) (nodes : List Instruction) :
    (insertNodes editor at_ nodes).instructions.items.length =
      editor.instructions.items.length + nodes.length := by
  rw [insertNodes_eq]
  simp only [CodeEditor.mapRefs, placedEditor, instructionListRecomputeOffsets_eq, List.length_map, length_layoutFrom,
    shiftedEditor_items, spliceAt, List.length_append, List.length_take, List.length_drop]
  omega

/-- The limit on the code length bounds the indices. -/
theorem indices_le {editor : CodeEditor} {at_ : Nat} {nodes : List Instruction} {bytes : Bytes}
    (h : instructionListEncode (insertNodes editor at_ nodes).instructions = .ok bytes) :
    editor.instructions.items.length + nodes.length ≤ 0xFFFF := by
  obtain ⟨he, hlen⟩ := instructionListEncode_cases h
  have := length_le_encodeFrom he
  rw [length_insertNodes] at this
  unfold jvmMaxCodeLength at hlen
  omega

/-- The index of the first instruction becomes its position. -/
theorem toOffset_zero (editor : CodeEditor) (at_ : Nat) (nodes : List Instruction) :
    toOffset (placedEditor editor at_ nodes).instructions 0 = 0 := by
  have first (list : InstructionList) : indexToOffset (instructionListRecomputeOffsets list) 0 = 0 := by
    rw [instructionListRecomputeOffsets_eq]
    cases list.items <;> simp [indexToOffset, layoutFrom, wrapI4]
  rw [toOffset, applyReference, placedEditor, first, if_neg (by omega)]

/-- Moving the targets moves nothing else. -/
theorem movedItems_sizes (editor : CodeEditor) (at_ : Nat) (nodes : List Instruction) :
    (movedItems editor at_ nodes).map Instruction.size =
      (spliceAt editor.instructions.items at_ nodes).map Instruction.size := by
  have size : Instruction.size ∘ (·.mapTargets (moveRef editor at_ nodes (shiftAfter at_ nodes.length))) =
      Instruction.size := by
    funext node n
    exact node.size_mapTargets _ n
  rw [movedItems, spliceAt_map, List.map_map, size, ← spliceAt_map]

theorem body_placedEditor (editor : CodeEditor) (at_ : Nat) (nodes : List Instruction) :
    (placedEditor editor at_ nodes).body = (shiftedEditor editor at_ nodes).body := by
  simp only [placedEditor, CodeEditor.body, instructionListRecomputeOffsets_eq]
  rw [map_layoutFrom fun _ _ => rfl]

namespace Spliceable

variable {editor : CodeEditor} {at_ : Nat} {nodes : List Instruction} (h : Spliceable editor at_ nodes)

include h

theorem mapTargets_nodes {f : Int → Int} (hf : f 0 = 0) : nodes.map (·.mapTargets f) = nodes := by
  refine (List.map_congr_left fun node hn => ?_).trans (List.map_id nodes)
  rw [Instruction.mapTargets, node.operand.mapTargets_of_fixed fun t ht => by rw [h.origin node hn t ht, hf]]
  rfl

/-- The code of the edited editor is the moved nodes, laid out. -/
theorem instructions_eq : (insertNodes editor at_ nodes).instructions =
    ⟨(layoutFrom 0 (movedItems editor at_ nodes)).1, (layoutFrom 0 (movedItems editor at_ nodes)).2⟩ := by
  have items : (shiftedEditor editor at_ nodes).instructions.items.map
      (·.mapTargets (toOffset (placedEditor editor at_ nodes).instructions)) = movedItems editor at_ nodes := by
    rw [shiftedEditor_items, spliceAt_map, spliceAt_map, h.mapTargets_nodes (shiftAfter_zero ..),
      h.mapTargets_nodes (toOffset_zero editor at_ nodes), movedItems]
    simp only [List.map_map, Function.comp_def, Instruction.mapTargets_mapTargets, moveRef]
  rw [insertNodes_eq, ← items, layoutFrom_mapTargets]
  simp only [CodeEditor.mapRefs, placedEditor, instructionListRecomputeOffsets_eq]

theorem toIndex_start {j : Nat} (hj : j ≤ editor.instructions.items.length) :
    toIndex editor.instructions (editor.instructions.start j) = j := by
  have hb := h.bound
  rw [toIndex, applyReference, h.laid.offsetToIndex_eq (h.laid.names_iff.mpr ⟨hj, rfl⟩) (by omega), if_neg (by omega)]

/-- Every reference names an instruction. -/
theorem names_of_mem {v : Int} (hv : v ∈ editor.refs) : ∃ j ≤ editor.instructions.items.length,
    editor.instructions.names v = some j ∧ v = editor.instructions.start j := by
  obtain ⟨j, hj⟩ := h.laid.names_of_offsetToIndex (h.named v hv)
  obtain ⟨hle, hv'⟩ := h.laid.names_iff.mp hj
  exact ⟨j, hle, hj, hv'⟩

theorem fitsI4_moveRef {v : Int} (hv : v ∈ editor.refs) :
    FitsI4 (moveRef editor at_ nodes (shiftAfter at_ nodes.length) v) := by
  have hb := h.bound
  obtain ⟨j, hj, -, rfl⟩ := h.names_of_mem hv
  simp only [moveRef, Function.comp_apply, h.toIndex_start hj, shiftAfter_natCast, toOffset, applyReference]
  split
  · unfold shiftPosition
    constructor <;> split <;> omega
  · rename_i hneg
    rw [indexToOffset, if_neg (by omega)] at hneg ⊢
    split <;> exact fitsI4_wrapI4 _

theorem encodable_movedItems : ∀ node ∈ movedItems editor at_ nodes, node.Encodable := by
  intro node hn
  have moved : ∀ x ∈ editor.instructions.items.map
      (·.mapTargets (moveRef editor at_ nodes (shiftAfter at_ nodes.length))), x.Encodable := by
    intro x hx
    obtain ⟨old, hold, rfl⟩ := List.mem_map.mp hx
    refine (h.laid.encodable old hold).mapTargets fun t ht => h.fitsI4_moveRef ?_
    simp only [CodeEditor.refs, List.mem_append, List.mem_flatMap]
    grind
  simp only [movedItems, spliceAt, List.mem_append] at hn
  rcases hn with hn | hn | hn
  · exact moved node (List.mem_of_mem_take hn)
  · exact h.encodable node hn
  · exact moved node (List.mem_of_mem_drop hn)

/-- Code that is encoded and takes as much room is within the limit. -/
theorem splicing_of_encode {items : List Instruction} {bytes : Bytes} (hencode : encodeFrom 0 items = .ok bytes)
    (hlen : bytes.length ≤ jvmMaxCodeLength) (hall : ∀ node ∈ items, node.Encodable)
    (hsizes : items.map Instruction.size = (spliceAt editor.instructions.items at_ nodes).map Instruction.size) :
    Splicing editor at_ nodes := by
  obtain ⟨hx, -, -⟩ := encodeFrom_ok hencode (by omega) hall
  unfold jvmMaxCodeLength at hlen
  refine ⟨h, ?_⟩
  rw [← extent_of_sizes hsizes, hx]
  omega

/-- An edited editor whose code is encoded as it is. -/
theorem splicing {bytes : Bytes}
    (hencode : instructionListEncode (insertNodes editor at_ nodes).instructions = .ok bytes) :
    Splicing editor at_ nodes := by
  obtain ⟨he, hlen⟩ := instructionListEncode_cases hencode
  rw [h.instructions_eq] at he
  refine h.splicing_of_encode he hlen (encodable_layoutFrom 0 h.encodable_movedItems) ?_
  rw [map_layoutFrom fun _ _ => rfl, movedItems_sizes]

end Spliceable

namespace Splicing

variable {editor : CodeEditor} {at_ : Nat} {nodes : List Instruction} (h : Splicing editor at_ nodes)

include h

/-- The new code is laid out, within the limit. -/
theorem laid_insert : (insertNodes editor at_ nodes).instructions.Laid ∧
    (insertNodes editor at_ nodes).instructions.codeLength ≤ 0xFFFF := by
  have hx : extent Instruction.size 0 (movedItems editor at_ nodes) ≤ jvmMaxCodeLength := by
    rw [extent_of_sizes (movedItems_sizes editor at_ nodes)]
    exact h.fits
  have hlay := layoutFrom_eq_placeFrom h.encodable_movedItems hx
  have hagain := layoutFrom_layoutFrom 0 0 (movedItems editor at_ nodes)
  have hsizes : extent Instruction.size 0 (layoutFrom 0 (movedItems editor at_ nodes)).1 =
      extent Instruction.size 0 (movedItems editor at_ nodes) :=
    extent_of_sizes (map_layoutFrom (fun _ _ => rfl) 0 _) 0
  have hall := encodable_layoutFrom 0 h.encodable_movedItems
  rw [h.instructions_eq]
  refine ⟨⟨?_, ?_, hall⟩, ?_⟩
  · have hplace := layoutFrom_eq_placeFrom hall (by rw [hsizes]; exact hx)
    rw [hagain] at hplace
    exact (congrArg Prod.fst hplace).symm
  · dsimp only
    rw [hsizes, hlay]
  · dsimp only
    rw [hlay]
    exact hx

/-- An index is turned into the position of its instruction. -/
theorem toOffset_eq {j : Nat} (hj : j ≤ editor.instructions.items.length + nodes.length) :
    toOffset (placedEditor editor at_ nodes).instructions j = (insertNodes editor at_ nodes).instructions.start j := by
  obtain ⟨hl, hcode⟩ := h.laid_insert
  have same : indexToOffset (placedEditor editor at_ nodes).instructions j =
      indexToOffset (insertNodes editor at_ nodes).instructions j := by
    rw [insertNodes_eq]
    simp only [indexToOffset, CodeEditor.mapRefs, List.getElem?_map]
    cases (placedEditor editor at_ nodes).instructions.items[(j : Int).toNat]? <;> rfl
  rw [toOffset, applyReference, same, hl.indexToOffset_eq (by rw [length_insertNodes]; exact hj) (by omega),
    if_neg (by omega)]

/-- A position moves to where its index has moved. -/
theorem moveRef_position {j : Nat} (hj : j ≤ editor.instructions.items.length) :
    moveRef editor at_ nodes (shiftAfter at_ nodes.length) (editor.instructions.start j) =
      (insertNodes editor at_ nodes).instructions.start (shiftPosition at_ nodes.length j) := by
  rw [moveRef, Function.comp_apply, Function.comp_apply, h.toIndex_start hj, shiftAfter_natCast,
    h.toOffset_eq (shiftPosition_le hj)]

/-- An instruction moves to where its index has moved. -/
theorem moveRef_instruction {j : Nat} (hj : j ≤ editor.instructions.items.length) :
    moveRef editor at_ nodes (shiftWith at_ nodes.length) (editor.instructions.start j) =
      (insertNodes editor at_ nodes).instructions.start (shiftInstruction at_ nodes.length j) := by
  rw [moveRef, Function.comp_apply, Function.comp_apply, h.toIndex_start hj, shiftWith_natCast,
    h.toOffset_eq (shiftInstruction_le hj)]

/-! The views of the editors on the way -/

theorem bounded_toIndex : Bounded (toIndex editor.instructions) editor.body.refs := by
  have hb := h.bound
  refine ⟨fun v hv => ?_, fun v hv => ?_, fun v hv w hw hvw => ?_⟩
  · obtain ⟨j, hj, -, rfl⟩ := h.names_of_mem (CodeEditor.mem_body_refs.mp hv)
    rw [h.toIndex_start hj]
    omega
  · obtain ⟨j, hj, -, rfl⟩ := h.names_of_mem (CodeEditor.mem_body_refs.mp hv)
    rw [h.toIndex_start hj]
    omega
  · obtain ⟨j, hj, -, rfl⟩ := h.names_of_mem (CodeEditor.mem_body_refs.mp hv)
    obtain ⟨k, hk, -, rfl⟩ := h.names_of_mem (CodeEditor.mem_body_refs.mp hw)
    rw [h.toIndex_start hj, h.toIndex_start hk]
    by_contra hlt
    have : editor.instructions.start k < editor.instructions.start j := InstructionList.start_lt (by omega) hj
    omega

/-- A map that keeps the first instruction keeps the nodes. -/
theorem body_nodes {f : Int → Int} (hf : f 0 = 0) : (nodes.map (·.body)).map (·.map f) = nodes.map (·.body) := by
  rw [List.map_map]
  refine List.map_congr_left fun node hn => ?_
  rw [Function.comp_apply, ← Instruction.body_mapTargets, Instruction.mapTargets,
    node.operand.mapTargets_of_fixed fun t ht => by rw [h.origin node hn t ht, hf]]

/-- A reference of the indexed editor, spliced or not, is an index. -/
theorem index_of_mem {v : Int} (hv : v ∈ ((editor.body.map (toIndex editor.instructions)
    (toIndex editor.instructions)).splice at_ (nodes.map (·.body))).refs) :
    ∃ j : Nat, v = j ∧ j ≤ editor.instructions.items.length := by
  rcases Body.mem_refs_splice hv with hv | ⟨node, hn, hv⟩
  · obtain ⟨w, hw, hv⟩ := Body.mem_refs_map hv
    obtain ⟨j, hj, -, rfl⟩ := h.names_of_mem (CodeEditor.mem_body_refs.mp hw)
    refine ⟨j, ?_, hj⟩
    rcases hv with rfl | rfl <;> exact h.toIndex_start hj
  · obtain ⟨x, hx, rfl⟩ := List.mem_map.mp hn
    exact ⟨0, h.origin x hx v hv, Nat.zero_le _⟩

theorem body_shiftedEditor : (shiftedEditor editor at_ nodes).body =
    ((editor.body.map (toIndex editor.instructions) (toIndex editor.instructions)).splice at_ (nodes.map (·.body))).map
      (shiftAfter at_ nodes.length) (shiftWith at_ nodes.length) := by
  have hb := h.bound
  have spliced : ({ editor.mapRefs (toIndex editor.instructions) (toIndex editor.instructions) with
      instructions := { (editor.mapRefs (toIndex editor.instructions) (toIndex editor.instructions)).instructions with
        items := spliceAt (editor.mapRefs (toIndex editor.instructions)
          (toIndex editor.instructions)).instructions.items
          at_ nodes } } : CodeEditor).body =
      (editor.body.map (toIndex editor.instructions) (toIndex editor.instructions)).splice at_
        (nodes.map (·.body)) := by
    rw [← CodeEditor.body_mapRefs h.bounded_toIndex]
    simp only [CodeEditor.body, Body.splice, spliceAt_map]
  rw [← spliced, shiftedEditor]
  refine CodeEditor.body_mapRefs ?_
  rw [spliced]
  refine ⟨fun v hv => ?_, fun v hv => ?_, fun v hv w hw hvw => ?_⟩
  · obtain ⟨j, rfl, hj⟩ := h.index_of_mem hv
    rw [shiftAfter_natCast]
    omega
  · obtain ⟨j, rfl, hj⟩ := h.index_of_mem hv
    have := @shiftPosition_le at_ nodes.length _ _ hj
    rw [shiftAfter_natCast]
    omega
  · obtain ⟨j, rfl, hj⟩ := h.index_of_mem hv
    obtain ⟨k, rfl, hk⟩ := h.index_of_mem hw
    unfold shiftAfter
    split <;> split <;> omega

/-- The view of the edited editor: every reference has moved, and the nodes stand at their place. -/
theorem body_insertNodes : (insertNodes editor at_ nodes).body =
    (editor.body.map (moveRef editor at_ nodes (shiftAfter at_ nodes.length))
      (moveRef editor at_ nodes (shiftWith at_ nodes.length))).splice at_ (nodes.map (·.body)) := by
  obtain ⟨hl, hcode⟩ := h.laid_insert
  have index {v : Int} (hv : v ∈ (placedEditor editor at_ nodes).body.refs) :
      ∃ j : Nat, v = j ∧ j ≤ editor.instructions.items.length + nodes.length := by
    rw [body_placedEditor, h.body_shiftedEditor] at hv
    obtain ⟨w, hw, hv⟩ := Body.mem_refs_map hv
    obtain ⟨j, rfl, hj⟩ := h.index_of_mem hw
    rcases hv with rfl | rfl
    · exact ⟨_, shiftAfter_natCast .., shiftPosition_le hj⟩
    · exact ⟨_, shiftWith_natCast .., shiftInstruction_le hj⟩
  have bounded : Bounded (toOffset (placedEditor editor at_ nodes).instructions)
      (placedEditor editor at_ nodes).body.refs := by
    refine ⟨fun v hv => ?_, fun v hv => ?_, fun v hv w hw hvw => ?_⟩
    · obtain ⟨j, rfl, hj⟩ := index hv
      rw [h.toOffset_eq hj]
      omega
    · obtain ⟨j, rfl, hj⟩ := index hv
      have := hl.start_le (j := j)
      rw [h.toOffset_eq hj]
      omega
    · obtain ⟨j, rfl, hj⟩ := index hv
      obtain ⟨k, rfl, hk⟩ := index hw
      have := (insertNodes editor at_ nodes).instructions.start_mono (i := j) (j := k) (by omega)
      rw [h.toOffset_eq hj, h.toOffset_eq hk]
      omega
  have fixed : (toOffset (placedEditor editor at_ nodes).instructions ∘ shiftAfter at_ nodes.length) 0 = 0 := by
    rw [Function.comp_apply, shiftAfter_zero, toOffset_zero]
  rw [insertNodes_eq, CodeEditor.body_mapRefs bounded, body_placedEditor, h.body_shiftedEditor, Body.map_map,
    Body.map_splice, Body.map_map, h.body_nodes fixed]
  rfl

/-- In the view with indices, the references are shifted and the nodes stand at their place, with their targets on the
first instruction. -/
theorem resolve_splice : (insertNodes editor at_ nodes).resolve =
    (editor.resolve.map (Option.map (shiftPosition at_ nodes.length))
      (Option.map (shiftInstruction at_ nodes.length))).splice at_
        (nodes.map fun node => node.body.map fun _ => some 0) := by
  obtain ⟨hl, -⟩ := h.laid_insert
  have names {j : Nat} (hj : j ≤ editor.instructions.items.length + nodes.length) :
      (insertNodes editor at_ nodes).instructions.names
        ((insertNodes editor at_ nodes).instructions.start j) = some j :=
    hl.names_iff.mpr ⟨by rw [length_insertNodes]; exact hj, rfl⟩
  have origin : (nodes.map (·.body)).map (·.map (insertNodes editor at_ nodes).instructions.names) =
      nodes.map fun node => node.body.map fun _ => some 0 := by
    rw [List.map_map]
    refine List.map_congr_left fun node hn => ?_
    simp only [Function.comp_apply, BodyInstruction.map, BodyInstruction.mk.injEq, true_and]
    refine List.map_congr_left fun t ht => ?_
    rw [h.origin node hn t ht]
    exact names (Nat.zero_le _)
  rw [CodeEditor.resolve, h.body_insertNodes, Body.map_splice, Body.map_map, origin, CodeEditor.resolve, Body.map_map]
  refine congrArg (fun b => Body.splice b at_ _) (Body.map_congr (fun v hv => ?_) fun v hv => ?_)
  · obtain ⟨j, hle, hj, rfl⟩ := h.names_of_mem (CodeEditor.mem_body_refs.mp hv)
    rw [Function.comp_apply, Function.comp_apply, h.moveRef_position hle, hj, names (shiftPosition_le hle)]
    rfl
  · obtain ⟨j, hle, hj, rfl⟩ := h.names_of_mem (CodeEditor.mem_body_refs.mp hv)
    rw [Function.comp_apply, Function.comp_apply, h.moveRef_instruction hle, hj, names (shiftInstruction_le hle)]
    rfl

end Splicing

/-- In the view with indices, the references are shifted and straight-line nodes stand at their place. -/
theorem Inserting.resolve_insertNodes {editor : CodeEditor} {at_ : Nat} {nodes : List Instruction}
    (h : Inserting editor at_ nodes) : (insertNodes editor at_ nodes).resolve =
    (editor.resolve.map (Option.map (shiftPosition at_ nodes.length))
      (Option.map (shiftInstruction at_ nodes.length))).splice at_ (nodes.map (·.plain)) := by
  have plain : (nodes.map fun node => node.body.map fun _ => some 0) = nodes.map fun node =>
    node.plain (ρ := Option Nat) := by
    refine List.map_congr_left fun node hn => ?_
    rw [(h.encodable node hn).body_straight (h.straight node hn)]
    rfl
  rw [h.resolve_splice, plain]

end Jni2Hook
