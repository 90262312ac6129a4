import Jni2Hook.Code.Insertion

/-!
# How much a StackMapTable can grow

`stack_map_table_write` cuts the length of the table to a `u4` without a test, so it has to be shown that an insertion
does not take a table past it. Only a frame whose delta changes can need a longer form. The inserted code moves the
positions behind it in at most three groups that each move alike: up to the point, up to the first switch behind it, and
behind that switch (where the padding of a switch takes up any change that is not a multiple of four). So at most two
deltas change, and the table grows by at most four bytes.
-/

namespace Jni2Hook

open Lib

/-! ## Frames that move in groups -/

theorem length_writeVerificationType_mapOffset (f : Int → Int) (type : VerificationType) :
    (writeVerificationType (type.mapOffset f)).length = (writeVerificationType type).length := by
  cases type <;> rfl

theorem length_types_mapOffset (f : Int → Int) (types : List VerificationType) :
    ((types.map (·.mapOffset f)).flatMap writeVerificationType).length =
      (types.flatMap writeVerificationType).length := by
  simp [List.length_flatMap, List.map_map, Function.comp_def, length_writeVerificationType_mapOffset]

/-- The types of a frame keep their widths. -/
theorem length_writeFrameBody_mapOffsets (f : Int → Int) (rawTag : UInt8) (delta : Int) (kind : FrameKind) :
    (writeFrameBody rawTag delta (kind.mapOffsets f)).length = (writeFrameBody rawTag delta kind).length := by
  cases kind with
  | same => rfl
  | sameLocals1StackItem stack =>
    simp only [FrameKind.mapOffsets, writeFrameBody]
    split <;> simp [length_writeVerificationType_mapOffset]
  | chop count => rfl
  | append locals =>
    have := length_types_mapOffset f locals
    simp only [FrameKind.mapOffsets, writeFrameBody, List.length_append, List.length_map, length_byteBufferU1,
      length_byteBufferU2]
    omega
  | full locals stack =>
    have hl := length_types_mapOffset f locals
    have hs := length_types_mapOffset f stack
    simp only [FrameKind.mapOffsets, writeFrameBody, List.length_append, List.length_map, length_byteBufferU1,
      length_byteBufferU2]
    omega

/-- Another delta costs at most the two bytes of the extended form. -/
theorem length_writeFrameBody_le (rawTag : UInt8) (delta delta' : Int) (kind : FrameKind) :
    (writeFrameBody rawTag delta' kind).length ≤ (writeFrameBody rawTag delta kind).length + 2 := by
  cases kind with
  | same =>
    simp only [writeFrameBody]
    split <;> split <;> simp
  | sameLocals1StackItem stack =>
    simp only [writeFrameBody]
    split <;> split <;> simp <;> omega
  | _ => simp [writeFrameBody]

/-- Positions that move in three groups: `phase` says which group an index is in, `shift` how far the group moves. -/
structure MovesInGroups (n : Nat) (start newStart : Nat → Int) (phase : Nat → Nat) (shift : Nat → Int) : Prop where
  mono : ∀ i j, i ≤ j → phase i ≤ phase j
  le : ∀ j, phase j ≤ 2
  first : shift 0 = 0
  moves : ∀ j ≤ n, newStart j = start j + shift (phase j)
  order : ∀ i j, i ≤ j → j ≤ n → newStart i ≤ newStart j
  nonneg : ∀ j, 0 ≤ newStart j
  bound : ∀ j ≤ n, newStart j < 2 ^ 31

theorem framesLength_growth {n : Nat} {start newStart : Nat → Int} {phase : Nat → Nat} {shift : Nat → Int}
    (hg : MovesInGroups n start newStart phase shift) {pos ins : Int → Int}
    (hpos : ∀ j ≤ n, pos (start j) = newStart j) :
    ∀ {frames : List StackMapFrame} {previous : Option Nat} {w : Bytes}, (∀ p ∈ previous, p ≤ n) →
    (∀ frame ∈ frames, ∃ j ≤ n, frame.offset = start j) →
    writeFrames (previous.map newStart) (frames.map (·.mapRefs pos ins)) = .ok w →
    framesLength (previous.map newStart) (frames.map (·.mapRefs pos ins)) ≤
      framesLength (previous.map start) frames + 2 * (2 - (previous.map phase).getD 0)
  | [], previous, w, _, _, _ => by simp [framesLength]
  | frame :: rest, previous, w, hp, hf, hw => by
    obtain ⟨j, hj, hoff⟩ := hf frame List.mem_cons_self
    obtain ⟨hd, -, tail, ht, -⟩ := writeFrames_cons hw
    have moved : (frame.mapRefs pos ins).offset = newStart j := by
      rw [StackMapFrame.mapRefs, hoff, hpos j hj]
    have hjn : ∀ p ∈ some j, p ≤ n := by
      intro p hp
      cases hp
      exact hj
    have next := framesLength_growth hg hpos hjn (fun f hmem => hf f (List.mem_cons_of_mem frame hmem))
      (by rw [Option.map_some, ← moved]; exact ht)
    simp only [Option.map_some, Option.getD_some] at next
    have le2 := hg.le j
    simp only [List.map_cons, framesLength, moved, hoff]
    have types (delta : Int) : (writeFrameBody (frame.mapRefs pos ins).rawTag delta
        (frame.mapRefs pos ins).kind).length = (writeFrameBody frame.rawTag delta frame.kind).length :=
          length_writeFrameBody_mapOffsets ins _ _ _
    rw [types]
    -- the phase of the frame before, which a frame that stands behind it does not precede
    have hle : (previous.map phase).getD 0 ≤ phase j ∧ ((previous.map phase).getD 0 = phase j →
        frameDelta (previous.map newStart) (newStart j) = frameDelta (previous.map start) (start j)) := by
      cases previous with
      | none =>
        refine ⟨Nat.zero_le _, fun h0 => ?_⟩
        have := hg.moves j hj
        rw [← show 0 = phase j from h0, hg.first] at this
        simp only [Option.map_none, frameDelta]
        omega
      | some p =>
        have hpn := hp p rfl
        rw [moved] at hd
        simp only [Option.map_some, frameDelta, Option.getD_some] at hd ⊢
        have hpj : p ≤ j := by
          by_contra hlt
          have := hg.order j p (by omega) hpn
          have := hg.nonneg j
          have := hg.bound p hpn
          rw [wrapI4_of_fits ⟨by omega, by omega⟩] at hd
          omega
        refine ⟨hg.mono p j hpj, fun heq => ?_⟩
        have h₁ := hg.moves j hj
        have h₂ := hg.moves p hpn
        rw [heq] at h₂
        rw [show newStart j - newStart p = start j - start p by omega]
    rcases Nat.lt_or_eq_of_le hle.1 with hlt | heq
    · have := length_writeFrameBody_le frame.rawTag (frameDelta (previous.map start) (start j))
        (frameDelta (previous.map newStart) (newStart j)) frame.kind
      omega
    · rw [hle.2 heq]
      omega

/-! ## Code moves in groups -/

theorem periodic_size : Periodic 4 Instruction.size := by
  intro node m m' h
  have hmod : (m + (encodeOpcode node).length) % 4 = (m' + (encodeOpcode node).length) % 4 := by
    rw [Nat.add_mod, h, ← Nat.add_mod]
  unfold Instruction.size
  obtain ⟨offset, opcode, wide, operand⟩ := node
  cases operand <;> simp only [Operand.size, hmod]

theorem aligned_size : Aligned 4 Instruction.size := by
  intro node
  obtain ⟨offset, opcode, wide, operand⟩ := node
  cases operand with
  | tableSwitch d low high targets =>
    right
    intro m
    simp only [Instruction.size, Operand.size]
    omega
  | lookupSwitch d pairs =>
    right
    intro m
    simp only [Instruction.size, Operand.size]
    omega
  | _ => exact .inl fun m m' => rfl

theorem Splicing.start_insert {editor : CodeEditor} {at_ : Nat} {nodes : List Instruction}
    (h : Splicing editor at_ nodes) (j : Nat) : (insertNodes editor at_ nodes).instructions.start j =
      startOf Instruction.size 0
        (editor.instructions.items.take at_ ++ (nodes ++ editor.instructions.items.drop at_)) j := by
  refine startOf_of_sizes ?_ 0 j
  rw [h.instructions_eq, map_layoutFrom fun _ _ => rfl, movedItems_sizes]
  rfl

/-- Up to the point nothing moves. -/
theorem Splicing.start_before {editor : CodeEditor} {at_ : Nat} {nodes : List Instruction}
    (h : Splicing editor at_ nodes) {j : Nat} (hj : j ≤ at_) :
    (insertNodes editor at_ nodes).instructions.start j = editor.instructions.start j := by
  have len : (editor.instructions.items.take at_).length = at_ := by simp [h.point]
  rw [h.start_insert, startOf_append_left _ (by omega), InstructionList.start]
  conv => rhs; rw [← List.take_append_drop at_ editor.instructions.items, startOf_append_left _ (by omega)]

/-- Behind the point the old code is laid out from the end of the nodes on. -/
theorem Splicing.start_behind {editor : CodeEditor} {at_ : Nat} {nodes : List Instruction}
    (h : Splicing editor at_ nodes) (k : Nat) :
    (insertNodes editor at_ nodes).instructions.start (at_ + (nodes.length + k)) =
      startOf Instruction.size (extent Instruction.size (editor.instructions.start at_) nodes)
        (editor.instructions.items.drop at_) k := by
  have len : (editor.instructions.items.take at_).length = at_ := by simp [h.point]
  have := @startOf_append_right _ Instruction.size 0 (editor.instructions.items.take at_)
    (nodes ++ editor.instructions.items.drop at_) (nodes.length + k)
  rw [len, startOf_append_right] at this
  rw [h.start_insert, this]
  rfl

theorem start_drop {list : InstructionList} {at_ : Nat} (h : at_ ≤ list.items.length) (k : Nat) :
    list.start (at_ + k) = startOf Instruction.size (list.start at_) (list.items.drop at_) k := by
  have len : (list.items.take at_).length = at_ := by simp [h]
  have := @startOf_append_right _ Instruction.size 0 (list.items.take at_) (list.items.drop at_) k
  rw [len, List.take_append_drop] at this
  exact this

/-- The group of an index: up to the point, up to `s` instructions behind it, and the rest. -/
def phaseOf (at_ s j : Nat) : Nat := if j ≤ at_ then 0 else if j - at_ ≤ s then 1 else 2

/-- How far a group moves. -/
def groupShift (a b : Int) (k : Nat) : Int := if k = 0 then 0 else if k = 1 then a else b

theorem Splicing.movesInGroups {editor : CodeEditor} {at_ : Nat} {nodes : List Instruction}
    (h : Splicing editor at_ nodes) : ∃ phase shift, MovesInGroups editor.instructions.items.length
      (fun j => (editor.instructions.start j : Int))
      (fun j => ((insertNodes editor at_ nodes).instructions.start (shiftPosition at_ nodes.length j) : Int))
      phase shift := by
  obtain ⟨s, c, hs⟩ := startOf_phases periodic_size aligned_size (editor.instructions.start at_)
    (extent Instruction.size (editor.instructions.start at_) nodes) (editor.instructions.items.drop at_)
  refine ⟨phaseOf at_ s, groupShift ((extent Instruction.size (editor.instructions.start at_) nodes : Int) -
    editor.instructions.start at_) c, ?_, ?_, rfl, ?_, ?_, ?_, ?_⟩
  · intro i j hij
    unfold phaseOf
    grind
  · intro j
    unfold phaseOf
    grind
  · intro j _
    by_cases hle : j ≤ at_
    · rw [shiftPosition, if_pos hle, h.start_before hle, phaseOf, if_pos hle]
      simp [groupShift]
    · obtain ⟨k, rfl⟩ : ∃ k, j = at_ + k := ⟨j - at_, by omega⟩
      rw [shiftPosition, if_neg hle, show at_ + k + nodes.length = at_ + (nodes.length + k) by omega, h.start_behind,
        start_drop h.point, hs, phaseOf, if_neg hle, Nat.add_sub_cancel_left]
      split <;> simp [groupShift]
  · intro i j hij _
    have : shiftPosition at_ nodes.length i ≤ shiftPosition at_ nodes.length j := by
      unfold shiftPosition
      split <;> split <;> omega
    exact Int.ofNat_le.mpr ((insertNodes editor at_ nodes).instructions.start_mono this)
  · intro j
    omega
  · intro j _
    obtain ⟨hl, hcode⟩ := h.laid_insert
    have := hl.start_le (j := shiftPosition at_ nodes.length j)
    omega

end Jni2Hook
