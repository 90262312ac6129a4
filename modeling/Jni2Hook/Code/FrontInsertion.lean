import Jni2Hook.Code.AbsoluteFrames
import Jni2Hook.Code.FrameGrowth
import Jni2Hook.Code.Storable

/-!
# Two insertions in front of the same code

* `Lengthens`: the nodes in front of a body and others that are longer by a multiple of four bytes.
* `Lengthens.start_behind`: the body moves as a whole, padding included.
* `Lengthens.reaches_iff`: a branch of the body still reaches its target unless it leads to the front.
* `Lengthens.flush`, `Lengthens.frames`: the tables are written as before.
-/

namespace Jni2Hook

open Lib

/-- Where a position moves when what stands in front becomes longer: the front itself stays. -/
def later (growth : Nat) (p : Int) : Int := if p = 0 then 0 else p + growth

theorem later_mono {growth : Nat} {p q : Int} (hp : 0 ≤ p) (h : p ≤ q) : later growth p ≤ later growth q := by
  unfold later
  split <;> split <;> omega

/-- Nodes in front of the code of an editor, and longer ones in their place. -/
structure Lengthens (editor : CodeEditor) (nodes nodes' : List Instruction) (growth : Nat) : Prop where
  short : Splicing editor 0 nodes
  long : Spliceable editor 0 nodes'
  filled : nodes ≠ []
  size : extent Instruction.size 0 nodes' = extent Instruction.size 0 nodes + growth
  whole : growth % 4 = 0
  room : (insertNodes editor 0 nodes).instructions.codeLength + growth ≤ 0xFFFF

namespace Lengthens

variable {editor : CodeEditor} {nodes nodes' : List Instruction} {growth : Nat}
    (h : Lengthens editor nodes nodes' growth)

include h

/-! ## The layout -/

/-- The body is laid out as before, moved. -/
theorem startOf_body (k : Nat) :
    startOf Instruction.size (extent Instruction.size 0 nodes') editor.instructions.items k =
    startOf Instruction.size (extent Instruction.size 0 nodes) editor.instructions.items k + growth := by
  have hwhole := h.whole
  have := @startOf_congr_mod _ _ _ periodic_size (extent Instruction.size 0 nodes) (extent Instruction.size 0 nodes')
    editor.instructions.items k (by rw [h.size]; omega)
  rw [h.size] at this ⊢
  omega

theorem filled' : nodes' ≠ [] := by
  rintro rfl
  have hsize := h.size
  have := add_length_le_extent Instruction.size_pos 0 nodes
  have hpos := List.length_pos_iff.mpr h.filled
  simp only [extent_nil] at hsize
  omega

/-- The longer code is within the limit. -/
theorem splicing : Splicing editor 0 nodes' := by
  refine ⟨h.long, ?_⟩
  have hlaid := h.short.laid_insert.1
  have hshort : extent Instruction.size 0 (nodes ++ editor.instructions.items) =
      (insertNodes editor 0 nodes).instructions.codeLength := by
    rw [← hlaid.start_length, h.short.start_insert, length_insertNodes, ← startOf_length]
    simp [Nat.add_comm]
  have hroom := h.room
  have hbody := h.startOf_body editor.instructions.items.length
  rw [startOf_length, startOf_length, ← extent_append, ← extent_append, hshort] at hbody
  rw [spliceAt, List.take_zero, List.nil_append, List.drop_zero, hbody]
  exact hroom

theorem start_behind (k : Nat) : (insertNodes editor 0 nodes').instructions.start (nodes'.length + k) =
    (insertNodes editor 0 nodes).instructions.start (nodes.length + k) + growth := by
  have hlong := h.splicing.start_behind k
  have hshort := h.short.start_behind k
  simp only [Nat.zero_add, List.drop_zero, InstructionList.start, startOf_zero] at hlong hshort
  rw [InstructionList.start, InstructionList.start, hlong, hshort]
  exact h.startOf_body k

theorem codeLength_eq : (insertNodes editor 0 nodes').instructions.codeLength =
    (insertNodes editor 0 nodes).instructions.codeLength + growth := by
  have := h.start_behind editor.instructions.items.length
  rw [← h.splicing.laid_insert.1.start_length, ← h.short.laid_insert.1.start_length, length_insertNodes,
    length_insertNodes, Nat.add_comm, this, Nat.add_comm nodes.length]

/-! ## References -/

theorem position_long {v : Int} (hv : v ∈ editor.refs) :
    moveRef editor 0 nodes' (shiftAfter (0 : Nat) nodes'.length) v =
      later growth (moveRef editor 0 nodes (shiftAfter (0 : Nat) nodes.length) v) := by
  obtain ⟨j, hj, -, rfl⟩ := h.short.names_of_mem hv
  rw [h.splicing.moveRef_position hj, h.short.moveRef_position hj, shiftPosition, shiftPosition]
  by_cases hzero : j ≤ 0
  · rw [if_pos hzero, if_pos hzero, Nat.le_zero.mp hzero]
    rfl
  · have hpos := @InstructionList.start_lt (insertNodes editor 0 nodes).instructions 0 (nodes.length + j)
      (by omega) (by rw [length_insertNodes]; omega)
    rw [if_neg hzero, if_neg hzero, Nat.add_comm, h.start_behind, Nat.add_comm j, later, if_neg (by omega)]
    omega

end Lengthens

/-! ## Branches -/

/-- The nodes of the edited code, one by one. -/
theorem Splicing.item_front {editor : CodeEditor} {nodes : List Instruction} (h : Splicing editor 0 nodes) (i : Nat) :
    (insertNodes editor 0 nodes).instructions.items[i]? =
      ((nodes ++ editor.instructions.items.map
        (·.mapTargets (moveRef editor 0 nodes (shiftAfter (0 : Nat) nodes.length))))[i]?).map
          fun node => { node with offset := (insertNodes editor 0 nodes).instructions.start i } := by
  have hforget := map_layoutFrom (f := fun node : Instruction => { node with offset := 0 }) (fun _ _ => rfl) 0
    (movedItems editor 0 nodes)
  have hsame := congrArg (·[i]?) hforget
  have hitems := congrArg InstructionList.items h.instructions_eq
  dsimp only at hitems
  rw [← hitems] at hsame
  simp only [List.getElem?_map] at hsame
  rw [movedItems, spliceAt, List.take_zero, List.nil_append, List.drop_zero] at hsame
  cases hnode : (insertNodes editor 0 nodes).instructions.items[i]? with
  | none =>
    rw [hnode, Option.map_none, eq_comm, Option.map_eq_none_iff] at hsame
    rw [hsame]
    rfl
  | some node =>
    rw [hnode, Option.map_some, eq_comm, Option.map_eq_some_iff] at hsame
    obtain ⟨old, hold, heq⟩ := hsame
    rw [hold, Option.map_some, ← h.laid_insert.1.offset_eq hnode]
    simp only [Instruction.mk.injEq] at heq
    obtain ⟨-, h₁, h₂, h₃⟩ := heq
    rw [h₁, h₂, h₃]

theorem Splicing.item_behind {editor : CodeEditor} {nodes : List Instruction} (h : Splicing editor 0 nodes) (k : Nat) :
    (insertNodes editor 0 nodes).instructions.items[nodes.length + k]? = editor.instructions.items[k]?.map fun node =>
      { node.mapTargets (moveRef editor 0 nodes (shiftAfter (0 : Nat) nodes.length)) with
        offset := (insertNodes editor 0 nodes).instructions.start (nodes.length + k) } := by
  rw [h.item_front, List.getElem?_append_right (by omega), Nat.add_sub_cancel_left, List.getElem?_map, Option.map_map]
  rfl

namespace Lengthens

variable {editor : CodeEditor} {nodes nodes' : List Instruction} {growth : Nat}
    (h : Lengthens editor nodes nodes' growth)

include h

/-- Both codes hold the same nodes behind their fronts. -/
theorem item_iff (k : Nat) :
    (∃ node, (insertNodes editor 0 nodes).instructions.items[nodes.length + k]? = some node) ↔
      ∃ node, (insertNodes editor 0 nodes').instructions.items[nodes'.length + k]? = some node := by
  rw [← Option.isSome_iff_exists, ← Option.isSome_iff_exists, h.short.item_behind, h.splicing.item_behind,
    Option.isSome_map, Option.isSome_map]

/-- A branch of the body that reaches its target does so behind longer nodes, unless it leads to the front. -/
theorem reaches_iff {k : Nat} {node node' : Instruction}
    (hnode : (insertNodes editor 0 nodes).instructions.items[nodes.length + k]? = some node)
    (hnode' : (insertNodes editor 0 nodes').instructions.items[nodes'.length + k]? = some node')
    (hreaches : node.Reaches) :
    node'.Reaches ↔ (node.operand = .branch 0 → node.offset + growth ≤ 2 ^ 15) := by
  have hlaid := h.splicing.laid_insert
  have hbound := h.splicing.laid_insert.1.start_le (j := nodes'.length + k)
  have hstart := h.start_behind k
  rw [h.short.item_behind] at hnode
  rw [h.splicing.item_behind] at hnode'
  obtain ⟨old, hold, rfl⟩ := Option.map_eq_some_iff.mp hnode
  rw [hold, Option.map_some, Option.some.injEq] at hnode'
  subst hnode'
  have hmem {t : Int} (ht : t ∈ old.operand.targets) : t ∈ editor.refs := by
    simp only [CodeEditor.refs, List.mem_append, List.mem_flatMap]
    exact .inl (.inl (.inl (.inl (.inl (.inl ⟨old, List.mem_of_getElem? hold, ht⟩)))))
  have moved {t : Int} (ht : t ∈ old.operand.targets) := h.position_long (hmem ht)
  have position {t : Int} (ht : t ∈ old.operand.targets) :
      0 ≤ moveRef editor 0 nodes (shiftAfter (0 : Nat) nodes.length) t ∧
        moveRef editor 0 nodes' (shiftAfter (0 : Nat) nodes'.length) t ≤ 0xFFFF :=
    ⟨(h.short.moveRef_le (hmem ht)).1.1, (h.splicing.moveRef_le (hmem ht)).1.2⟩
  unfold Instruction.Reaches at hreaches ⊢
  simp only [Instruction.mapTargets] at hreaches ⊢
  cases hoperand : old.operand with
  | branch t =>
    have ht : t ∈ old.operand.targets := by rw [hoperand]; exact List.mem_singleton_self t
    have := position ht
    simp only [hoperand, Operand.mapTargets, moved ht, FitsI2, later, Operand.branch.injEq, hstart] at hreaches ⊢
    split
    · rename_i hzero
      omega
    · rename_i hzero
      exact ⟨fun _ hz => absurd hz hzero, fun _ => by omega⟩
  | branchWide t =>
    have ht : t ∈ old.operand.targets := by rw [hoperand]; exact List.mem_singleton_self t
    have := position ht
    rw [moved ht] at this
    simp only [hoperand, Operand.mapTargets, moved ht, FitsI4, later, hstart, reduceCtorEq, false_implies, iff_true]
      at hreaches this ⊢
    split at this <;> split <;> omega
  | _ => simp [Operand.mapTargets]

end Lengthens

/-! ## Frames -/

theorem mem_refs_of_frame {editor : CodeEditor} {frame : StackMapFrame} (h : frame ∈ tableEntries editor.stackMap) :
    frame.offset ∈ editor.refs ∧ ∀ v ∈ frame.kind.refs, v ∈ editor.refs := by
  simp only [CodeEditor.refs, List.mem_append, List.mem_flatMap]
  exact ⟨.inl (.inr ⟨frame, h, List.mem_cons_self⟩), fun v hv => .inl (.inr ⟨frame, h, List.mem_cons_of_mem _ hv⟩)⟩

theorem index_of_origin {list : InstructionList} {j : Nat} (hj : j ≤ list.items.length)
    (h : list.start j = 0) : j = 0 := by
  by_contra hne
  have := @InstructionList.start_lt list 0 j (by omega) hj
  omega

section Front

variable {editor : CodeEditor} {nodes : List Instruction} (h : Splicing editor 0 nodes)

include h

/-- Where a frame moves when nodes are put before the first instruction. -/
theorem Splicing.frame_moved {frame : StackMapFrame} (hframe : frame ∈ tableEntries editor.stackMap) :
    ∃ j ≤ editor.instructions.items.length, editor.instructions.names frame.offset = some j ∧
      frame.offset = editor.instructions.start j ∧
      moveRef editor 0 nodes (shiftAfter (0 : Nat) nodes.length) frame.offset =
        (insertNodes editor 0 nodes).instructions.start (shiftPosition 0 nodes.length j) := by
  obtain ⟨j, hj, hname, hstart⟩ := h.names_of_mem (mem_refs_of_frame hframe).1
  exact ⟨j, hj, hname, hstart, by rw [hstart]; exact h.moveRef_position hj⟩

/-- A frame at the first instruction stays before the body, and every other one moves behind its start. -/
theorem Splicing.frame_sides (hnodes : nodes ≠ []) {frame : StackMapFrame}
    (hframe : frame ∈ tableEntries editor.stackMap) :
    0 ≤ frame.offset ∧
    (frame.offset = 0 → moveRef editor 0 nodes (shiftAfter (0 : Nat) nodes.length) frame.offset <
      (insertNodes editor 0 nodes).instructions.start nodes.length) ∧
    (frame.offset ≠ 0 → ((insertNodes editor 0 nodes).instructions.start nodes.length : Int) <
      moveRef editor 0 nodes (shiftAfter (0 : Nat) nodes.length) frame.offset) := by
  obtain ⟨j, hj, -, hstart, hmoved⟩ := h.frame_moved hframe
  have hpos := List.length_pos_iff.mpr hnodes
  have hlen := length_insertNodes editor 0 nodes
  rw [hmoved, shiftPosition]
  refine ⟨by omega, fun hzero => ?_, fun hzero => ?_⟩
  · have hj0 := index_of_origin hj (by omega)
    rw [if_pos (by omega), hj0]
    exact Int.ofNat_lt.mpr (InstructionList.start_lt hpos (by omega))
  · have hj0 : j ≠ 0 := by
      rintro rfl
      exact hzero hstart
    rw [if_neg (by omega)]
    exact Int.ofNat_lt.mpr (InstructionList.start_lt (by omega) (by omega))

end Front

/-! ## Tables -/

section Lengths

variable (editor : CodeEditor) (at_ : Nat) (nodes : List Instruction)

theorem lineNumbers_insertNodes :
    (insertNodes editor at_ nodes).lineNumbers.map (·.entries.length) = editor.lineNumbers.map (·.entries.length) := by
  simp [insertNodes, CodeEditor.mapRefs, NamedTable.mapEntries, Function.comp_def]

theorem locals_insertNodes :
    (insertNodes editor at_ nodes).locals.map (·.entries.length) = editor.locals.map (·.entries.length) := by
  simp [insertNodes, CodeEditor.mapRefs, NamedTable.mapEntries, Function.comp_def]

theorem localTypes_insertNodes :
    (insertNodes editor at_ nodes).localTypes.map (·.entries.length) = editor.localTypes.map (·.entries.length) := by
  simp [insertNodes, CodeEditor.mapRefs, NamedTable.mapEntries, Function.comp_def]

end Lengths

theorem sameRoom_fill (refs refs' : List TypeAnnotationRef) (others : List AttributeInfo) :
    SameRoom (fillOthers refs 0 others) (fillOthers refs' 0 others) := by
  refine List.ext_getElem? fun k => ?_
  rw [List.getElem?_map, List.getElem?_map, getElem?_fillOthers, getElem?_fillOthers]
  cases others[k]? with
  | none => rfl
  | some a => simp only [Option.map_some, room_eq, length_fillRefs]

theorem mapRefs_same (pos ins pos' ins' : Int → Int) (ref : TypeAnnotationRef) :
    SamePlace (ref.mapRefs pos ins) (ref.mapRefs pos' ins') := by
  unfold TypeAnnotationRef.mapRefs
  cases ref.kind <;> exact ⟨rfl, rfl, rfl⟩

/-- The frames behind the entry move as a whole, so their distances stay. -/
theorem framesSize_behind {growth : Nat} {f f' : StackMapFrame → StackMapFrame} :
    ∀ {frames : List StackMapFrame} (p : Int), (∀ x ∈ frames, (f' x).offset = (f x).offset + growth ∧
      ∀ distance, (f' x).kind.size (f' x).rawTag distance = (f x).kind.size (f x).rawTag distance) →
    framesSize (p + growth) (frames.map f') = framesSize p (frames.map f)
  | [], _, _ => rfl
  | x :: rest, p, hall => by
    obtain ⟨hoffset, hsize⟩ := hall x List.mem_cons_self
    have hrest := framesSize_behind (f x).offset fun y hy => hall y (List.mem_cons_of_mem x hy)
    simp only [List.map_cons, framesSize]
    rw [hsize, hoffset, hrest, show (f x).offset + growth - (p + growth) - 1 = (f x).offset - p - 1 by omega]

theorem pairwise_later {growth : Nat} {frames frames' : List StackMapFrame}
    (hoffsets : frames'.map StackMapFrame.offset = (frames.map StackMapFrame.offset).map (later growth))
    (hlow : ∀ frame ∈ frames, 0 ≤ frame.offset)
    (h : frames.Pairwise fun frame next => frame.offset < next.offset) :
    frames'.Pairwise fun frame next => frame.offset < next.offset := by
  rw [← List.pairwise_map (f := StackMapFrame.offset) (R := (· < ·)), hoffsets, List.pairwise_map, List.pairwise_map]
  refine h.imp_of_mem fun hx hy hlt => ?_
  have := hlow _ hx
  unfold later
  split <;> split <;> omega

/-- Where a frame moves when nodes are put in front of the code. -/
def frontFrame (editor : CodeEditor) (nodes : List Instruction) (frame : StackMapFrame) : StackMapFrame :=
  frame.mapRefs (moveRef editor 0 nodes (shiftAfter (0 : Nat) nodes.length))
    (moveRef editor 0 nodes (shiftWith (0 : Nat) nodes.length))

theorem tableEntries_front (editor : CodeEditor) (nodes : List Instruction) :
    tableEntries (insertNodes editor 0 nodes).stackMap =
      (tableEntries editor.stackMap).map (frontFrame editor nodes) := by
  rw [stackMap_insertNodes]
  cases editor.stackMap <;> rfl

/-- The frame at the code behind the nodes. -/
def behindFrame (editor : CodeEditor) (nodes : List Instruction) (locals : List VerificationType) : StackMapFrame :=
  ⟨255, (insertNodes editor 0 nodes).instructions.start nodes.length, .full locals []⟩

theorem Splicing.offsets_front {editor : CodeEditor} {nodes : List Instruction} (h : Splicing editor 0 nodes)
    {before behind : List StackMapFrame} (hmem : ∀ x ∈ before ++ behind, x ∈ tableEntries editor.stackMap)
    (locals : List VerificationType) :
    ∀ frame ∈ before.map (frontFrame editor nodes) ++ behindFrame editor nodes locals ::
      behind.map (frontFrame editor nodes), 0 ≤ frame.offset ∧ frame.offset ≤ 0xFFFF := by
  have hfront {l : List StackMapFrame} (hl : l ⊆ before ++ behind) {frame : StackMapFrame}
      (hf : frame ∈ l.map (frontFrame editor nodes)) : 0 ≤ frame.offset ∧ frame.offset ≤ 0xFFFF := by
    obtain ⟨x, hx, rfl⟩ := List.mem_map.mp hf
    exact (h.moveRef_le (mem_refs_of_frame (hmem x (hl hx))).1).1
  intro frame hf
  rcases List.mem_append.mp hf with hf | hf
  · exact hfront (List.subset_append_left _ _) hf
  rcases List.mem_cons.mp hf with rfl | hf
  · obtain ⟨hl, hcode⟩ := h.laid_insert
    have hle := hl.start_le (j := nodes.length)
    simp only [behindFrame]
    omega
  · exact hfront (List.subset_append_right _ _) hf

theorem size_mapOffsets (f : Int → Int) (rawTag : UInt8) (distance : Int) (kind : FrameKind) :
    (kind.mapOffsets f).size rawTag distance = kind.size rawTag distance := by
  cases kind <;> simp [FrameKind.mapOffsets, FrameKind.size, size_mapOffset, typesSize_mapOffset]

theorem size_frontFrame (editor : CodeEditor) (nodes nodes' : List Instruction) (frame : StackMapFrame)
    (distance : Int) :
    (frontFrame editor nodes' frame).kind.size (frontFrame editor nodes' frame).rawTag distance =
      (frontFrame editor nodes frame).kind.size (frontFrame editor nodes frame).rawTag distance := by
  simp only [frontFrame, StackMapFrame.mapRefs, size_mapOffsets]

namespace Lengthens

variable {editor : CodeEditor} {nodes nodes' : List Instruction} {growth : Nat}
    (h : Lengthens editor nodes nodes' growth)

include h

theorem offset_behindFrame (locals locals' : List VerificationType) :
    (behindFrame editor nodes' locals').offset = (behindFrame editor nodes locals).offset + growth := by
  have hstart := h.start_behind 0
  rw [Nat.add_zero, Nat.add_zero] at hstart
  simp only [behindFrame, hstart]
  exact Int.natCast_add _ _

/-- The type annotations are flushed as before. -/
theorem flush {written : List AttributeInfo} (hflush : typeAnnotationFlush (insertNodes editor 0 nodes).typeAnnotations
    (insertNodes editor 0 nodes).otherAttributes = (.ok (), written)) :
    ∃ written', typeAnnotationFlush (insertNodes editor 0 nodes').typeAnnotations
      (insertNodes editor 0 nodes').otherAttributes = (.ok (), written') ∧ SameRoom written written' := by
  obtain ⟨hflushed, hwritten⟩ := typeAnnotationFlush_ok hflush
  have hflushed' : ∀ ref ∈ (insertNodes editor 0 nodes').typeAnnotations, ref.Flushed := by
    intro ref hr
    rw [typeAnnotations_insertNodes] at hflushed hr
    obtain ⟨old, hold, rfl⟩ := List.mem_map.mp hr
    have hshort := hflushed _ (List.mem_map_of_mem hold)
    have hmem {v : Int} (hv : v ∈ old.refs) : v ∈ editor.refs := by
      simp only [CodeEditor.refs, List.mem_append, List.mem_flatMap]
      exact .inr ⟨old, hold, hv⟩
    unfold TypeAnnotationRef.Flushed TypeAnnotationRef.mapRefs at hshort ⊢
    cases hkind : old.kind with
    | span =>
      have hstart : old.start ∈ editor.refs := hmem (by simp [TypeAnnotationRef.refs, hkind])
      have hstop : old.stop ∈ editor.refs := hmem (by simp [TypeAnnotationRef.refs, hkind])
      rw [hkind] at hshort
      have hle := @later_mono growth _ _ hshort.1 (hshort.2.2 rfl).1
      rw [← h.position_long hstart, ← h.position_long hstop] at hle
      have h₁ := (h.splicing.moveRef_le hstart).1
      exact ⟨h₁.1, h₁.2, fun _ => ⟨hle, (h.splicing.moveRef_le hstop).1.2⟩⟩
    | instruction =>
      have hstart := (h.splicing.moveRef_le (hmem (v := old.start) (by simp [TypeAnnotationRef.refs, hkind]))).2
      exact ⟨hstart.1, hstart.2, fun hspan => by cases hspan⟩
  have hplaces : List.Forall₂ SamePlace (insertNodes editor 0 nodes).typeAnnotations
      (insertNodes editor 0 nodes').typeAnnotations := by
    rw [typeAnnotations_insertNodes, typeAnnotations_insertNodes, List.forall₂_map_left_iff, List.forall₂_map_right_iff]
    exact List.forall₂_same.mpr fun ref _ => mapRefs_same _ _ _ _ ref
  obtain ⟨written', hflush'⟩ := typeAnnotationFlush_same hplaces hflushed' rfl hflush
  refine ⟨written', hflush', ?_⟩
  rw [hwritten, (typeAnnotationFlush_ok hflush').2]
  exact sameRoom_fill _ _ _

/-- Every frame moves on, up to the one at the front. -/
theorem offsets_later {before behind : List StackMapFrame}
    (hmem : ∀ x ∈ before ++ behind, x ∈ tableEntries editor.stackMap) (locals locals' : List VerificationType) :
    (before.map (frontFrame editor nodes') ++ behindFrame editor nodes' locals' ::
      behind.map (frontFrame editor nodes')).map StackMapFrame.offset =
      ((before.map (frontFrame editor nodes) ++ behindFrame editor nodes locals ::
        behind.map (frontFrame editor nodes)).map StackMapFrame.offset).map (later growth) := by
  have hfront {l : List StackMapFrame} (hl : l ⊆ before ++ behind) :
      (l.map (frontFrame editor nodes')).map StackMapFrame.offset =
        ((l.map (frontFrame editor nodes)).map StackMapFrame.offset).map (later growth) := by
    simp only [List.map_map]
    exact List.map_congr_left fun x hx => h.position_long (mem_refs_of_frame (hmem x (hl hx))).1
  have hpos := @InstructionList.start_lt (insertNodes editor 0 nodes).instructions 0 nodes.length
    (List.length_pos_iff.mpr h.filled) (by rw [length_insertNodes]; omega)
  have hentry : (behindFrame editor nodes' locals').offset = later growth (behindFrame editor nodes locals).offset := by
    have hne : (behindFrame editor nodes locals).offset ≠ 0 := Int.natCast_ne_zero.mpr (by omega)
    rw [later, if_neg hne, h.offset_behindFrame locals locals']
  simp only [List.map_append, List.map_cons, hentry, hfront (List.subset_append_left _ _),
    hfront (List.subset_append_right _ _)]

theorem framesSize_eq {before behind : List StackMapFrame}
    (hmem : ∀ x ∈ before ++ behind, x ∈ tableEntries editor.stackMap)
    (hbefore : before = [] ∨ ∃ first, before = [first] ∧ first.offset = 0) (hbehind : ∀ x ∈ behind, x.offset ≠ 0)
    {locals locals' : List VerificationType} (hlocals : typesSize locals' = typesSize locals) :
    framesSize (-1) (before.map (frontFrame editor nodes') ++ behindFrame editor nodes' locals' ::
      behind.map (frontFrame editor nodes')) =
    framesSize (-1) (before.map (frontFrame editor nodes) ++ behindFrame editor nodes locals ::
      behind.map (frontFrame editor nodes)) := by
  have hrefs {x : StackMapFrame} (hx : x ∈ before ++ behind) : x.offset ∈ editor.refs :=
    (mem_refs_of_frame (hmem x hx)).1
  have hrest := @framesSize_behind growth (frontFrame editor nodes) (frontFrame editor nodes') behind
    (behindFrame editor nodes locals).offset fun x hx => by
      refine ⟨?_, size_frontFrame editor nodes nodes' x⟩
      have hside := (h.short.frame_sides h.filled (hmem x (List.mem_append_right _ hx))).2.2 (hbehind x hx)
      simp only [frontFrame, StackMapFrame.mapRefs]
      rw [h.position_long (hrefs (List.mem_append_right _ hx)), later, if_neg (by omega)]
  rw [← h.offset_behindFrame locals locals'] at hrest
  have hsize (distance distance' : Int) : (behindFrame editor nodes' locals').kind.size
      (behindFrame editor nodes' locals').rawTag distance' =
        (behindFrame editor nodes locals).kind.size (behindFrame editor nodes locals).rawTag distance := by
    simp only [behindFrame, FrameKind.size, hlocals]
  rcases hbefore with rfl | ⟨first, rfl, hzero⟩
  · simp only [List.map_nil, List.nil_append, framesSize]
    rw [hrest, hsize]
  · have hfirst : (frontFrame editor nodes' first).offset = (frontFrame editor nodes first).offset := by
      obtain ⟨j, hj, -, hj'⟩ := h.short.names_of_mem (hrefs (List.mem_append_left _ (List.mem_singleton_self first)))
      simp only [frontFrame, StackMapFrame.mapRefs]
      rw [hj', h.splicing.moveRef_position hj, h.short.moveRef_position hj,
        index_of_origin hj (by omega), shiftPosition,
        shiftPosition, if_pos (Nat.le_refl 0), if_pos (Nat.le_refl 0), InstructionList.start, InstructionList.start,
        startOf_zero, startOf_zero]
    simp only [List.map_cons, List.map_nil, List.singleton_append, framesSize]
    rw [hrest, size_frontFrame editor nodes nodes', hfirst, hsize]

/-- The frames are written with as many bytes as before. -/
theorem frames {before behind : List StackMapFrame} (hmem : ∀ x ∈ before ++ behind, x ∈ tableEntries editor.stackMap)
    (hbefore : before = [] ∨ ∃ first, before = [first] ∧ first.offset = 0) (hbehind : ∀ x ∈ behind, x.offset ≠ 0)
    {locals locals' : List VerificationType} (hlocals : typesSize locals' = typesSize locals) {w : Bytes}
    (hw : writeFrames none (before.map (frontFrame editor nodes) ++ behindFrame editor nodes locals ::
      behind.map (frontFrame editor nodes)) = .ok w) :
    ∃ w', writeFrames none (before.map (frontFrame editor nodes') ++ behindFrame editor nodes' locals' ::
      behind.map (frontFrame editor nodes')) = .ok w' ∧ w'.length = w.length := by
  have hshort := h.short.offsets_front hmem locals
  have hinc := (pairwise_of_writeFrames hw (fun p hp => by cases hp) fun frame hf => by
    have := hshort frame hf
    omega).2
  obtain ⟨w₀, hw₀, hlen⟩ := @writeFrames_increasing _ none (by rintro p ⟨⟩) hinc hshort
  obtain ⟨w', hw', hlen'⟩ := @writeFrames_increasing _ none (by rintro p ⟨⟩)
    (pairwise_later (h.offsets_later hmem locals locals') (fun frame hf => (hshort frame hf).1) hinc)
    (h.splicing.offsets_front hmem locals')
  obtain rfl : w₀ = w := Except.ok.inj (hw₀.symm.trans hw)
  refine ⟨w', hw', ?_⟩
  rw [hlen, hlen', Option.getD_none, h.framesSize_eq hmem hbefore hbehind hlocals]

end Lengthens

end Jni2Hook
