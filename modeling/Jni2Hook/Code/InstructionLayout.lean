import Jni2Hook.Code.InstructionBytes

/-!
# One layout

Three functions of `instruction.c` know where an instruction stands: the decoder counts the bytes it has read,
`instruction_list_recompute_offsets` adds up `instruction_length_at`, and the encoder counts the bytes it has written.

* `Chained`: the offsets of a list are the sums of the lengths before them.
* `Recomputes`: the passes of `instruction_list_recompute_offsets` until one changes nothing.
* `instruction_layouts_agree`: the three give one layout.
-/

namespace Jni2Hook

open Lib

/-- A node without its offset. -/
def Instruction.unplaced (node : Instruction) : Instruction := { node with offset := 0 }

/-- The same nodes, whatever their offsets. -/
def SameNodes (items items' : List Instruction) : Prop :=
  items.map Instruction.unplaced = items'.map Instruction.unplaced

/-- Every node stands where the one before it ends, the first at `n`, and the last ends at `stop`. Sums are taken with
`sum`: the identity for integers, `u4` for the counter of the code. -/
def Chained (sum : Nat → Nat) : Nat → List Instruction → Nat → Prop
  | n, [], stop => n = stop
  | n, node :: rest, stop => node.offset = n ∧ Chained sum (sum (n + instructionLengthAt node n)) rest stop

/-- A pass over the list, and whether it has changed an offset. -/
def recomputePass (list : InstructionList) : InstructionList × Bool :=
  let (placed, stop) := layoutFrom 0 list.items
  (⟨placed, stop⟩, decide (placed ≠ list.items))

/-- The loop of `instruction_list_recompute_offsets` returns after so many passes. -/
inductive Recomputes : Nat → InstructionList → InstructionList → Prop
  | last {list list' : InstructionList} : recomputePass list = (list', false) → Recomputes 1 list list'
  | again {passes : Nat} {list list₁ list' : InstructionList} : recomputePass list = (list₁, true) →
      Recomputes passes list₁ list' → Recomputes (passes + 1) list list'

/-! ## Recomputing -/

theorem instructionLengthAt_unplaced (node : Instruction) (n : Nat) :
    instructionLengthAt node.unplaced n = instructionLengthAt node n := rfl

/-- A pass does not read the offsets. -/
theorem layoutFrom_congr : ∀ {items items' : List Instruction} (n : Nat), SameNodes items items' →
    layoutFrom n items = layoutFrom n items'
  | [], items', n, h => by
    cases List.map_eq_nil_iff.mp h.symm
    rfl
  | node :: rest, items', n, h => by
    obtain ⟨node', rest', rfl, hnode, hrest⟩ := List.map_eq_cons_iff.mp h.symm
    have hlength : instructionLengthAt node' n = instructionLengthAt node n := by
      rw [← instructionLengthAt_unplaced node', hnode, instructionLengthAt_unplaced]
    have hplaced : ({ node' with offset := n } : Instruction) = { node with offset := n } :=
      congrArg (fun x : Instruction => { x with offset := n }) hnode
    rw [layoutFrom, layoutFrom, hlength, hplaced, layoutFrom_congr _ hrest.symm]

theorem sameNodes_layoutFrom : ∀ (n : Nat) (items : List Instruction), SameNodes (layoutFrom n items).1 items
  | _, [] => rfl
  | n, node :: rest => by
    have hrest := sameNodes_layoutFrom (u4 (n + instructionLengthAt node n)) rest
    exact congrArg (node.unplaced :: ·) hrest

theorem chained_layoutFrom : ∀ (n : Nat) (items : List Instruction),
    Chained u4 n (layoutFrom n items).1 (layoutFrom n items).2
  | _, [] => rfl
  | n, node :: rest => ⟨rfl, chained_layoutFrom (u4 (n + instructionLengthAt node n)) rest⟩

/-- A chain is its own layout. -/
theorem Chained.layoutFrom_eq : ∀ {n stop : Nat} {items : List Instruction}, Chained u4 n items stop →
    layoutFrom n items = (items, stop)
  | n, stop, [], h => by rw [layoutFrom, ← (h : n = stop)]
  | n, stop, node :: rest, ⟨hoffset, hrest⟩ => by
    rw [layoutFrom, hrest.layoutFrom_eq]
    subst hoffset
    rfl

/-- Sums of integers that stay within 32 bits are those of the counter. -/
theorem Chained.of_u4 : ∀ {n stop : Nat} {items : List Instruction}, Chained u4 n items stop →
    extent instructionLengthAt n items < 2 ^ 32 → Chained id n items stop
  | _, _, [], h, _ => h
  | n, _, node :: rest, ⟨hoffset, hrest⟩, hfits => by
    rw [extent_cons] at hfits
    have hle := @le_extent _ instructionLengthAt (n + instructionLengthAt node n) rest
    have hsum : u4 (n + instructionLengthAt node n) = n + instructionLengthAt node n := u4_of_lt (by omega)
    rw [hsum] at hrest
    exact ⟨hoffset, hrest.of_u4 hfits⟩

theorem recomputePass_recompute (list : InstructionList) :
    recomputePass (instructionListRecomputeOffsets list) = (instructionListRecomputeOffsets list, false) := by
  rw [instructionListRecomputeOffsets_eq, recomputePass]
  simp [layoutFrom_layoutFrom]

/-- The loop ends: the second pass finds nothing to change. -/
theorem recomputes_within_two (list : InstructionList) :
    ∃ passes ≤ 2, Recomputes passes list (instructionListRecomputeOffsets list) := by
  have hpass : (recomputePass list).1 = instructionListRecomputeOffsets list := by
    rw [instructionListRecomputeOffsets_eq]
    rfl
  cases hchanged : (recomputePass list).2 with
  | false => exact ⟨1, by decide, .last (Prod.ext hpass hchanged)⟩
  | true => exact ⟨2, by decide, .again (Prod.ext hpass hchanged) (.last (recomputePass_recompute list))⟩

/-- The nodes have one layout. -/
theorem Chained.unique {list : InstructionList} {items : List Instruction} {stop : Nat}
    (hnodes : SameNodes items list.items)
    (h : Chained u4 0 items stop) : instructionListRecomputeOffsets list = ⟨items, stop⟩ := by
  rw [instructionListRecomputeOffsets_eq, ← layoutFrom_congr 0 hnodes, h.layoutFrom_eq]

/-! ## Decoding -/

theorem chained_placeFrom : ∀ {n : Nat} {items : List Instruction}, placeFrom n items = items →
    (∀ node ∈ items, node.Encodable) → extent Instruction.size n items ≤ jvmMaxCodeLength →
    Chained id n items (extent Instruction.size n items)
  | _, [], _, _, _ => rfl
  | n, node :: rest, hplaced, he, hx => by
    rw [extent_cons] at hx
    have hle := @le_extent _ Instruction.size (n + node.size n) rest
    have hlength : instructionLengthAt node n = node.size n := (he node List.mem_cons_self).lengthAt_eq (by omega)
    obtain ⟨hnode, hrest⟩ := List.cons.inj hplaced
    refine ⟨congrArg Instruction.offset hnode.symm, ?_⟩
    rw [hlength]
    exact chained_placeFrom hrest (fun x hmem => he x (List.mem_cons_of_mem node hmem)) hx

/-! ## Encoding -/

/-- The encoder, with `n` bytes in its buffer, puts the node at its offset: the nodes before it take the bytes up to
there, and it takes the bytes its length says. -/
def EmittedAt (n : Nat) (items : List Instruction) (i : Nat) (node : Instruction) (bytes : Bytes) : Prop :=
  ∃ before operand after, bytes = before ++ (encodeOpcode node ++ (operand ++ after)) ∧
    encodeFrom n (items.take i) = .ok before ∧ n + before.length = node.offset ∧
    encodeOperand node.offset (node.offset + (encodeOpcode node).length) node = .ok operand ∧
    (encodeOpcode node ++ operand).length = instructionLengthAt node node.offset

theorem emittedAt_of_encodeFrom : ∀ {n i : Nat} {items : List Instruction} {bytes : Bytes} {node : Instruction},
    encodeFrom n items = .ok bytes → n + bytes.length ≤ jvmMaxCodeLength → (∀ node ∈ items, node.Encodable) →
    placeFrom n items = items → items[i]? = some node → EmittedAt n items i node bytes
  | n, i, first :: rest, bytes, node, h, hmax, he, hplaced, hi => by
    obtain ⟨operand, tail, ho, hr, rfl⟩ := encodeFrom_cons_ok h
    simp only [List.length_append] at hmax
    have hlimit : jvmMaxCodeLength = 65535 := rfl
    have hfirst := he first List.mem_cons_self
    rw [u4_of_lt (by omega)] at ho
    have hsize := hfirst.length_encoded ho (by omega)
    obtain ⟨hhere, hrest⟩ := List.cons.inj hplaced
    have hoffset : n = first.offset := congrArg Instruction.offset hhere
    cases i with
    | zero =>
      cases hi
      subst hoffset
      refine ⟨[], operand, tail, rfl, rfl, rfl, ho, ?_⟩
      rw [List.length_append, hsize, hfirst.lengthAt_eq (by omega)]
    | succ i =>
      have hr' := hr
      rw [Nat.add_assoc, hsize] at hr
      obtain ⟨before, operand', after, rfl, hbefore, hstart, hoperand, hlength⟩ := emittedAt_of_encodeFrom hr (by omega)
        (fun x hmem => he x (List.mem_cons_of_mem first hmem)) hrest hi
      refine ⟨encodeOpcode first ++ (operand ++ before), operand', after, by simp, ?_, ?_, hoperand, hlength⟩
      · rw [List.take_succ_cons, encodeFrom, u4_of_lt (by omega), ho]
        rw [← hsize, ← Nat.add_assoc] at hbefore
        simp only [bind, Except.bind, hbefore]
        rfl
      · simp only [List.length_append]
        omega

/-! ## The three views -/

/-- The list that recomputing the offsets gives is the only layout of its nodes, and the encoder keeps to it. -/
structure OnlyLayout (list list' : InstructionList) : Prop where
  ends : ∃ passes ≤ 2, Recomputes passes list list'
  idempotent : instructionListRecomputeOffsets list' = list'
  nodes : SameNodes list'.items list.items
  chained : Chained u4 0 list'.items list'.codeLength
  exactSums : extent instructionLengthAt 0 list'.items < 2 ^ 32 → Chained id 0 list'.items list'.codeLength
  unique : ∀ items stop, SameNodes items list.items → Chained u4 0 items stop → list' = ⟨items, stop⟩
  regardless : ∀ other : InstructionList, SameNodes other.items list.items →
    instructionListRecomputeOffsets other = list'
  encoded : ∀ bytes, instructionListEncode list' = .ok bytes → bytes.length = list'.codeLength ∧
    ∀ i node, list'.items[i]? = some node → EmittedAt 0 list'.items i node bytes

theorem Instruction.Encodable.of_sameNodes {items items' : List Instruction} (h : SameNodes items' items)
    (he : ∀ node ∈ items, node.Encodable) : ∀ node ∈ items', node.Encodable := by
  intro node hnode
  have hmem : node.unplaced ∈ items.map Instruction.unplaced := by
    rw [← (h : _ = _)]
    exact List.mem_map_of_mem hnode
  obtain ⟨node', hnode', hsame⟩ := List.mem_map.mp hmem
  have hcanonical := he node' hnode'
  have hopcode : node'.opcode = node.opcode := congrArg (·.opcode) hsame
  have hwide : node'.wide = node.wide := congrArg (·.wide) hsame
  have hoperand : node'.operand = node.operand := congrArg (·.operand) hsame
  obtain ⟨hdefined, hnotWide, hkind, hwidenable, hfits⟩ := hcanonical
  rw [hopcode] at hdefined hnotWide hkind hwidenable hfits
  rw [hwide] at hwidenable hfits
  rw [hoperand] at hkind hfits
  exact ⟨hdefined, hnotWide, hkind, hwidenable, hfits⟩

theorem onlyLayout_recompute {list : InstructionList} (he : ∀ node ∈ list.items, node.Encodable) :
    OnlyLayout list (instructionListRecomputeOffsets list) := by
  have heq := instructionListRecomputeOffsets_eq list
  have hnodes : SameNodes (instructionListRecomputeOffsets list).items list.items := by
    rw [heq]
    exact sameNodes_layoutFrom 0 list.items
  have hchained : Chained u4 0 (instructionListRecomputeOffsets list).items
      (instructionListRecomputeOffsets list).codeLength := by
    rw [heq]
    exact chained_layoutFrom 0 list.items
  have hidempotent : instructionListRecomputeOffsets (instructionListRecomputeOffsets list) =
      instructionListRecomputeOffsets list := hchained.unique rfl
  refine ⟨recomputes_within_two list, hidempotent, hnodes, hchained, hchained.of_u4, ?_, ?_, ?_⟩
  · intro items stop hsame hother
    exact hother.unique hsame
  · intro other hsame
    exact hchained.unique (hnodes.trans hsame.symm)
  · intro bytes hencode
    have he' := Instruction.Encodable.of_sameNodes hnodes he
    have hlaid := laid_of_recompute he' hidempotent hencode
    obtain ⟨hbytes, hmax⟩ := instructionListEncode_cases hencode
    have hlength := (parse_of_encode hlaid hencode).2
    exact ⟨hlength.symm, fun i node hi => emittedAt_of_encodeFrom hbytes (by omega) he' hlaid.placed hi⟩

/-- **Decoder, layout and encoder agree on where instructions stand.** Code within the limit is decoded to a chain over
its length. Recomputing ends after at most two passes, at the only chain of the nodes, whatever their offsets were; and
a list that is encoded then has every node at its offset. -/
theorem instruction_layouts_agree :
    (∀ (code : Bytes) (list : InstructionList), code.length ≤ jvmMaxCodeLength → instructionListParse code = .ok list →
      Chained id 0 list.items list.codeLength ∧ list.codeLength = code.length) ∧
    ∀ list : InstructionList, (∀ node ∈ list.items, node.Encodable) →
      OnlyLayout list (instructionListRecomputeOffsets list) := by
  refine ⟨fun code list hmax hparse => ?_, fun list he => onlyLayout_recompute he⟩
  obtain ⟨hlaid, hlength⟩ := laid_of_parse hparse
  refine ⟨?_, hlength⟩
  have hstop := hlaid.stop
  rw [← hstop]
  exact chained_placeFrom hlaid.placed hlaid.encodable (by omega)

/-- A `nop` before a switch whose padding its position decides, with all offsets wrong. -/
def unplacedSwitch : InstructionList :=
  ⟨[⟨7, Opc.nop, false, .none⟩, ⟨7, Opc.tableswitch, false, .tableSwitch 20 0 0 [20]⟩,
    ⟨7, Opc.return_, false, .none⟩], 0⟩

theorem instruction_layouts_agree_switch :
    (∃ list, instructionListParse paddedSwitch = .ok list ∧ Chained id 0 list.items 21) ∧
      OnlyLayout unplacedSwitch ⟨[⟨0, Opc.nop, false, .none⟩, ⟨1, Opc.tableswitch, false, .tableSwitch 20 0 0 [20]⟩,
        ⟨20, Opc.return_, false, .none⟩], 21⟩ := by
  constructor
  · have hparse : instructionListParse paddedSwitch = .ok ⟨[⟨0, Opc.nop, false, .none⟩,
        ⟨1, Opc.tableswitch, false, .tableSwitch 20 0 0 [20]⟩, ⟨20, Opc.return_, false, .none⟩], 21⟩ := by
      decide +kernel
    exact ⟨_, hparse, (instruction_layouts_agree.1 _ _ (by decide) hparse).1⟩
  · have hrecompute : instructionListRecomputeOffsets unplacedSwitch = ⟨[⟨0, Opc.nop, false, .none⟩,
        ⟨1, Opc.tableswitch, false, .tableSwitch 20 0 0 [20]⟩, ⟨20, Opc.return_, false, .none⟩], 21⟩ := by
      decide +kernel
    rw [← hrecompute]
    refine instruction_layouts_agree.2 unplacedSwitch fun node hnode => ?_
    simp only [unplacedSwitch, List.mem_cons, List.not_mem_nil, or_false] at hnode
    rcases hnode with rfl | rfl | rfl
    · exact ⟨by decide, by decide, by decide, by decide, by decide⟩
    · exact ⟨by decide, by decide, by decide, by decide, by decide⟩
    · exact ⟨by decide, by decide, by decide, by decide, by decide⟩

end Jni2Hook
