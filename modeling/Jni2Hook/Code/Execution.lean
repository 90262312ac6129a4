import Jni2Hook.Code.RepeatedInsertion
import Jni2Hook.Lib.Flow

/-!
# Running a body

The flow graph of a body (`Body.flow`) has what an instruction is without its targets as its operation, the edges of the
control-flow graph, and the handlers in the order of the table. What the instructions do to a frame stays a parameter.
As in the control-flow graph, the return from a subroutine (`ret`) may go behind any `jsr` of the body.

* `Interleaved`: a body has blocks of instructions before those of another one, and every reference moved.
* `Interleaved.bisimulation`: it runs like the other body with each block run whenever control arrives at its
  instruction.
* `WovenBody`: the blocks are straight-line code; `WovenBody.insert` is one more insertion.
* `runsWith_insert`: straight-line code at one point.
* `SameVisibleRuns`: what is seen of two bodies is the same; `RunsWith.sameVisibleRuns` for blocks that change nothing.
-/

namespace Jni2Hook

open Lib

/-! ## The flow graph of a body -/

/-- An instruction without its targets. -/
def BodyInstruction.shape {ρ : Type} (i : BodyInstruction ρ) : BodyInstruction Unit := i.map fun _ => ()

/-- The class that a handler catches. -/
def EdgeKind.caught : EdgeKind → UInt16
  | .handler _ catchType => catchType
  | _ => 0

def Body.flow (b : Body (Option Nat)) : FlowGraph Nat (BodyInstruction Unit) EdgeKind UInt16 where
  op i := b.instructions[i]?.map (·.shape)
  edges i := (b.successors i).filter (·.1.isNormal)
  handlers i := (b.handlers i).map (Prod.map EdgeKind.caught id)

/-- What instructions do to frames `φ` with events `ε`. -/
abbrev FrameMeaning (φ ε : Type) := Meaning (BodyInstruction Unit) EdgeKind UInt16 φ ε

theorem shape_map {ρ σ : Type} (f : ρ → σ) (i : BodyInstruction ρ) : (i.map f).shape = i.shape := by
  simp only [BodyInstruction.shape, BodyInstruction.map, List.map_map, Function.comp_def]

theorem shape_plain {ρ : Type} (node : Instruction) : (node.plain : BodyInstruction ρ).shape = node.plain := rfl

/-- Jumps are no handlers. -/
theorem jumps_isNormal (i : BodyInstruction (Option Nat)) : ∀ x ∈ i.jumps, x.1.isNormal = true := by
  intro x hx
  obtain ⟨⟨kind, target⟩, hmem, hsome⟩ := List.mem_filterMap.mp hx
  obtain ⟨j, -, rfl⟩ := Option.map_eq_some_iff.mp hsome
  have hlabel := (List.of_mem_zip hmem).1
  cases hoperand : i.operand <;> rw [hoperand] at hlabel <;> simp only [Operand.labels, List.mem_cons, List.mem_map,
    List.not_mem_nil, or_false] at hlabel
  case branch => rw [hlabel]; rfl
  case branchWide => rw [hlabel]; rfl
  case tableSwitch => obtain rfl | ⟨k, -, rfl⟩ := hlabel <;> rfl
  case lookupSwitch => obtain rfl | ⟨k, -, rfl⟩ := hlabel <;> rfl

/-- Returns from subroutines are no handlers. -/
theorem returns_isNormal (b : Body (Option Nat)) (node : BodyInstruction (Option Nat)) :
    ∀ x ∈ b.returns node, x.1.isNormal = true := by
  intro x hx
  unfold Body.returns at hx
  split at hx
  · rw [(mem_returnsFrom.mp hx).1]
    rfl
  · cases hx

theorem normal_successors (own handlers : List (EdgeKind × Nat)) (hown : ∀ x ∈ own, x.1.isNormal = true)
    (hhandlers : ∀ x ∈ handlers, x.1.isNormal = false) : (own ++ handlers).filter (·.1.isNormal) = own := by
  rw [List.filter_append, List.filter_eq_self.mpr hown,
    List.filter_eq_nil_iff.mpr fun x hx => by rw [hhandlers x hx]; exact Bool.false_ne_true, List.append_nil]

/-- The edges of a body are those on which control goes on. -/
theorem edges_flow {b : Body (Option Nat)} {i : Nat} {node : BodyInstruction (Option Nat)}
    (hnode : b.instructions[i]? = some node) : b.flow.edges i =
      (if fallsThrough node.opcode then [(.fallThrough, i + 1)] else []) ++ node.jumps ++ b.returns node := by
  simp only [Body.flow, Body.successors, hnode]
  refine normal_successors _ _ (fun x hx => ?_) (handlers_not_normal b i)
  rcases List.mem_append.mp hx with hx | hx
  · rcases List.mem_append.mp hx with hx | hx
    · split at hx
      · rw [List.mem_singleton.mp hx]
        rfl
      · cases hx
    · exact jumps_isNormal node x hx
  · exact returns_isNormal b node x hx

theorem edges_flow_none {b : Body (Option Nat)} {i : Nat} (hnode : b.instructions[i]? = none) :
    b.flow.edges i = [] := by
  simp only [Body.flow, Body.successors, hnode, List.filter_nil]

/-! ## Blocks of instructions -/

/-- The edges of an instruction of a block, to places of the block. -/
def BodyInstruction.edgesAt (node : BodyInstruction Nat) (k : Nat) : List (EdgeKind × Nat) :=
  (if fallsThrough node.opcode then [(.fallThrough, k + 1)] else []) ++ (node.map some).jumps

/-- The flow of instructions that are put before another one. Their targets are counted from the first of them, and
their number stands for the one behind them. -/
def blockFlow (block : List (BodyInstruction Nat)) : FlowBlock (BodyInstruction Unit) EdgeKind :=
  block.zipIdx.map fun x => (x.1.shape, x.1.edgesAt x.2)

theorem length_blockFlow (block : List (BodyInstruction Nat)) : (blockFlow block).length = block.length := by
  rw [blockFlow, List.length_map, List.length_zipIdx]

theorem getElem?_blockFlow (block : List (BodyInstruction Nat)) (k : Nat) :
    (blockFlow block)[k]? = block[k]?.map fun node => (node.shape, node.edgesAt k) := by
  rw [blockFlow, List.getElem?_map, List.getElem?_zipIdx, Option.map_map, Nat.zero_add]
  rfl

/-- A block where it stands: its targets are positions of the code. -/
def placedBlock (blocks : Nat → List (BodyInstruction Nat)) (j : Nat) : List (BodyInstruction (Option Nat)) :=
  (blocks j).map (·.map fun t => some (weavePosition blocks j + t))

theorem weavePosition_placed (blocks : Nat → List (BodyInstruction Nat)) (j : Nat) :
    weavePosition (placedBlock blocks) j = weavePosition blocks j :=
  weavePosition_congr j fun _ _ => List.length_map _

/-- The second body has the blocks before the instructions of the first, and every reference moved: what referred to an
instruction refers to the block before it. -/
structure Interleaved (old new : Body (Option Nat)) (blocks : Nat → List (BodyInstruction Nat)) : Prop where
  instructions : new.instructions =
    weave (placedBlock blocks) (old.instructions.map (·.map (Option.map (weavePosition blocks))))
  exceptions : new.exceptions = old.exceptions.map (·.map (Option.map (weavePosition blocks)))
  ended : ∀ j, old.instructions.length < j → blocks j = []
  closed : ∀ j, ∀ node ∈ blocks j, ∀ t ∈ node.targets, t ≤ (blocks j).length
  outside : ∀ j, ∀ node ∈ blocks j, outsideSubroutines node.opcode = true

/-- The body with the blocks as it is meant: a block runs whenever control arrives at its instruction. -/
def Body.withBlocks (b : Body (Option Nat)) (blocks : Nat → List (BodyInstruction Nat)) :
    FlowGraph (Nat × Nat) (BodyInstruction Unit) EdgeKind UInt16 :=
  b.flow.interpose fun i => blockFlow (blocks i)

/-- Where the code of a place stands. -/
def blockPosition (blocks : Nat → List (BodyInstruction Nat)) (x : Nat × Nat) : Nat := weavePosition blocks x.1 + x.2

section Interleaving

variable {old new : Body (Option Nat)} {blocks : Nat → List (BodyInstruction Nat)}

/-- A handler that guards an instruction guards the block before it. -/
theorem BodyException.edge_weave {i k : Nat} (hk : k ≤ (blocks i).length)
    (e : BodyException (Option Nat)) (entry : Nat) :
    (e.map (Option.map (weavePosition blocks))).edge entry (weavePosition blocks i + k) =
      (e.edge entry i).map (Prod.map id (weavePosition blocks)) := by
  obtain ⟨start, stop, handler, catchType⟩ := e
  cases start <;> cases stop <;> cases handler <;> try rfl
  rename_i a b h
  have covers : (weavePosition blocks a ≤ weavePosition blocks i + k ∧
      weavePosition blocks i + k < weavePosition blocks b) ↔ (a ≤ i ∧ i < b) := by
    rw [← Nat.not_le, weavePosition_le_iff hk, weavePosition_le_iff hk, Nat.not_le]
  simp only [BodyException.edge, BodyException.map, Option.map_some, covers]
  split <;> rfl

theorem Interleaved.handlers (h : Interleaved old new blocks) {i k : Nat} (hk : k ≤ (blocks i).length) :
    new.handlers (weavePosition blocks i + k) = (old.handlers i).map (Prod.map id (weavePosition blocks)) := by
  unfold Body.handlers
  rw [h.exceptions]
  exact filterMap_zipIdx_map (BodyException.map _) _ (fun e entry => e.edge entry i)
    (fun e entry => e.edge entry (weavePosition blocks i + k)) (fun e entry => BodyException.edge_weave hk e entry)
    old.exceptions 0

theorem Interleaved.block (h : Interleaved old new blocks) {i k : Nat} (hk : k < (blocks i).length) :
    new.instructions[weavePosition blocks i + k]? =
      (blocks i)[k]?.map (·.map fun t => some (weavePosition blocks i + t)) := by
  have hi : i ≤ old.instructions.length := by
    by_contra hlt
    rw [h.ended i (by omega)] at hk
    exact absurd hk (Nat.not_lt_zero k)
  have hblock := @getElem?_weave_block _ (placedBlock blocks)
    (old.instructions.map (·.map (Option.map (weavePosition blocks)))) i k
    (by rw [List.length_map]; exact hi) (by rw [placedBlock, List.length_map]; exact hk)
  rw [weavePosition_placed] at hblock
  rw [h.instructions, hblock, placedBlock, List.getElem?_map]

theorem Interleaved.item (h : Interleaved old new blocks) (i : Nat) :
    new.instructions[weavePosition blocks i + (blocks i).length]? =
      old.instructions[i]?.map (·.map (Option.map (weavePosition blocks))) := by
  have hitem := getElem?_weave_item (placedBlock blocks)
    (old.instructions.map (·.map (Option.map (weavePosition blocks)))) i
  rw [weavePosition_placed, placedBlock, List.length_map, List.getElem?_map] at hitem
  rw [h.instructions]
  exact hitem

/-- Subroutines return to the blocks before the instructions behind their calls. -/
theorem Interleaved.returns (h : Interleaved old new blocks) (node : BodyInstruction (Option Nat)) :
    new.returns (node.map (Option.map (weavePosition blocks))) =
      (old.returns node).map (Prod.map id (weavePosition blocks)) := by
  have outside (j : Nat) : ∀ i ∈ placedBlock blocks j, outsideSubroutines i.opcode = true := by
    intro i hi
    obtain ⟨node', hnode', rfl⟩ := List.mem_map.mp hi
    exact h.outside j node' hnode'
  -- along the items, each behind its block
  have woven (l : List (BodyInstruction (Option Nat))) (k : Nat) :
      returnsFrom (weavePosition blocks k)
        (weaveFrom (placedBlock blocks) k (l.map (·.map (Option.map (weavePosition blocks))))) =
      (returnsFrom k l).map (Prod.map id (weavePosition blocks)) := by
    induction l generalizing k with
    | nil => exact returnsFrom_outside (outside k) _
    | cons i l ih =>
      have hnext : weavePosition blocks k + (placedBlock blocks k).length + 1 = weavePosition blocks (k + 1) := by
        rw [placedBlock, List.length_map, weavePosition, Nat.add_assoc]
      rw [List.map_cons, weaveFrom, returnsFrom_append, returnsFrom_outside (outside k), List.nil_append, returnsFrom,
        returnsFrom, hnext, ih, List.map_append, map_edge]
      rfl
  refine returns_moved ?_ _ node
  rw [h.instructions]
  exact woven old.instructions 0

section Meant

variable {i k : Nat} {node : BodyInstruction Nat} (hnode : (blocks i)[k]? = some node)

include hnode

theorem flow_of_block : (blockFlow (blocks i))[k]? = some (node.shape, node.edgesAt k) := by
  rw [getElem?_blockFlow, hnode]
  rfl

theorem op_block : (old.withBlocks blocks).op (i, k) = some node.shape :=
  @FlowGraph.op_interpose _ _ _ _ old.flow (fun i => blockFlow (blocks i)) i k _ (flow_of_block hnode)

theorem edges_block : (old.withBlocks blocks).edges (i, k) = (node.edgesAt k).map (Prod.map id (i, ·)) :=
  @FlowGraph.edges_interpose _ _ _ _ old.flow (fun i => blockFlow (blocks i)) i k _ (flow_of_block hnode)

end Meant

theorem op_item (i : Nat) : (old.withBlocks blocks).op (i, (blocks i).length) = old.flow.op i :=
  FlowGraph.op_behind (length_blockFlow _).le

theorem edges_item (i : Nat) :
    (old.withBlocks blocks).edges (i, (blocks i).length) = (old.flow.edges i).map (Prod.map id (·, 0)) :=
  FlowGraph.edges_behind (length_blockFlow _).le

/-- A place is that of an instruction of the block, or that of the instruction behind it. -/
theorem place_cases {i k : Nat} (hk : k ≤ (blocks i).length) :
    (∃ node, (blocks i)[k]? = some node ∧ k < (blocks i).length) ∨ k = (blocks i).length := by
  rcases Nat.lt_or_eq_of_le hk with hlt | heq
  · exact .inl ⟨(blocks i)[k], List.getElem?_eq_getElem hlt, hlt⟩
  · exact .inr heq

theorem Interleaved.op_eq (h : Interleaved old new blocks) {i k : Nat} (hk : k ≤ (blocks i).length) :
    new.flow.op (weavePosition blocks i + k) = (old.withBlocks blocks).op (i, k) := by
  rcases place_cases hk with ⟨node, hnode, hlt⟩ | rfl
  · rw [op_block hnode]
    simp only [Body.flow, h.block hlt, hnode, Option.map_some, shape_map]
  · rw [op_item]
    simp only [Body.flow, h.item, Option.map_map]
    exact congrArg (fun f => Option.map f _) (funext fun node => shape_map _ node)

theorem Interleaved.edges_eq (h : Interleaved old new blocks) {i k : Nat} (hk : k ≤ (blocks i).length) :
    new.flow.edges (weavePosition blocks i + k) =
      ((old.withBlocks blocks).edges (i, k)).map (Prod.map id (blockPosition blocks)) := by
  rcases place_cases hk with ⟨node, hnode, hlt⟩ | rfl
  · have hmap : (node.map fun t => some (weavePosition blocks i + t)) =
        (node.map some).map (Option.map (weavePosition blocks i + ·)) := by
      simp only [BodyInstruction.map, List.map_map]
      rfl
    have hnew : new.instructions[weavePosition blocks i + k]? =
        some ((node.map some).map (Option.map (weavePosition blocks i + ·))) := by
      rw [h.block hlt, hnode, ← hmap]
      rfl
    rw [edges_block hnode, edges_flow hnew, returns_of_outside _ (h.outside i node (List.mem_of_getElem? hnode)),
      List.append_nil, BodyInstruction.edgesAt, List.map_append, List.map_append, BodyInstruction.jumps_map, map_edge,
      map_edge, List.map_map]
    rfl
  · rw [edges_item]
    cases hnode : old.instructions[i]? with
    | none => rw [edges_flow_none hnode, edges_flow_none (by rw [h.item, hnode]; rfl), List.map_nil, List.map_nil]
    | some node =>
      have hnew : new.instructions[weavePosition blocks i + (blocks i).length]? =
          some (node.map (Option.map (weavePosition blocks))) := by
        rw [h.item, hnode]
        rfl
      rw [edges_flow hnode, edges_flow hnew, BodyInstruction.jumps_map, h.returns, List.map_append, List.map_append,
        List.map_append, List.map_append, map_edge, map_edge, List.map_map, List.map_map]
      rfl

/-- An edge leads to a place of a block, or to one behind it. -/
theorem Interleaved.edges_closed (h : Interleaved old new blocks) {i k : Nat} (hk : k ≤ (blocks i).length)
    {label : EdgeKind} {y : Nat × Nat} (hedge : (label, y) ∈ (old.withBlocks blocks).edges (i, k)) :
    y.2 ≤ (blocks y.1).length := by
  rcases place_cases hk with ⟨node, hnode, hlt⟩ | rfl
  · rw [edges_block hnode] at hedge
    obtain ⟨⟨kind, t⟩, hown, heq⟩ := List.mem_map.mp hedge
    cases heq
    rcases List.mem_append.mp hown with hfall | hjump
    · split at hfall
      · cases List.mem_singleton.mp hfall
        exact hlt
      · cases hfall
    · obtain ⟨⟨kind', target⟩, hmem, hsome⟩ := List.mem_filterMap.mp hjump
      obtain ⟨place, rfl, heq⟩ := Option.map_eq_some_iff.mp hsome
      cases heq
      obtain ⟨t', ht', heq⟩ := List.mem_map.mp (List.of_mem_zip hmem).2
      cases heq
      exact h.closed i node (List.mem_of_getElem? hnode) _ ht'
  · rw [edges_item] at hedge
    obtain ⟨⟨kind, j⟩, -, heq⟩ := List.mem_map.mp hedge
    cases heq
    exact Nat.zero_le _

/-- The second body has the operations, the edges and the handlers that the first one has with its blocks. -/
theorem Interleaved.embeds (h : Interleaved old new blocks) : (old.withBlocks blocks).Embeds new.flow
    (fun x => x.2 ≤ (blocks x.1).length) (blockPosition blocks) := by
  refine ⟨fun hk => h.op_eq hk, fun hk => h.edges_eq hk, fun {x} hk => ?_, fun hk hedge => h.edges_closed hk hedge,
    fun {x guard y} _ hmem => ?_⟩
  · simp only [Body.flow, Body.withBlocks, FlowGraph.interpose, blockPosition, h.handlers hk, List.map_map]
    rfl
  · obtain ⟨⟨guard', j⟩, -, heq⟩ := List.mem_map.mp hmem
    cases heq
    exact Nat.zero_le _

/-- A body runs like another one with blocks, whatever instructions do: at each place it can make the steps that are
meant, and no others, so that its runs from the first instruction are those that are meant. -/
structure RunsWith (old new : Body (Option Nat)) (blocks : Nat → List (BodyInstruction Nat)) : Prop where
  steps : ∀ {φ ε : Type} (sem : FrameMeaning φ ε), Bisimulation ((old.withBlocks blocks).Step sem) (new.flow.Step sem)
    fun x y => x.In (fun p => p.2 ≤ (blocks p.1).length) ∧ y = x.map (blockPosition blocks)
  runs : ∀ {φ ε : Type} (sem : FrameMeaning φ ε) (s : φ) (es : List ε) (y : Place Nat φ),
    Path (new.flow.Step sem) (.before 0 s) es y ↔
      ∃ x, Path ((old.withBlocks blocks).Step sem) (.before (0, 0) s) es x ∧ y = x.map (blockPosition blocks)

theorem Interleaved.runsWith (h : Interleaved old new blocks) : RunsWith old new blocks := by
  refine ⟨fun sem => h.embeds.bisimulation sem, fun {φ ε} sem s es y => ?_⟩
  have hsteps := h.embeds.bisimulation sem
  have hstart : (Place.before (0, 0) s : Place (Nat × Nat) φ).In (fun p => p.2 ≤ (blocks p.1).length) ∧
      (.before 0 s : Place Nat φ) = (Place.before (0, 0) s).map (blockPosition blocks) := ⟨Nat.zero_le _, rfl⟩
  constructor
  · intro hpath
    obtain ⟨x, hmeant, -, hy⟩ := hsteps.path_back hstart hpath
    exact ⟨x, hmeant, hy⟩
  · rintro ⟨x, hmeant, rfl⟩
    obtain ⟨y, hpath, -, rfl⟩ := hsteps.path hstart hmeant
    exact hpath

end Interleaving

/-! ## Straight-line code -/

/-- Calls as blocks. -/
def callBlocks (calls : Nat → List Instruction) (j : Nat) : List (BodyInstruction Nat) := (calls j).map (·.plain)

/-- A body with calls before the instructions of another one. -/
structure WovenBody (old new : Body (Option Nat)) (calls : Nat → List Instruction) : Prop where
  instructions : new.instructions = woven calls old.instructions
  exceptions : new.exceptions = old.exceptions.map (·.map (Option.map (weavePosition calls)))

section Woven

variable {old new : Body (Option Nat)} {calls : Nat → List Instruction}

theorem WovenBody.refl (b : Body (Option Nat)) : WovenBody b b fun _ => [] := by
  refine ⟨(woven_empty _).symm, ?_⟩
  have position : (weavePosition fun _ => ([] : List Instruction)) = id :=
    funext fun t => weavePosition_of_empty fun _ _ => rfl
  rw [position, Option.map_id]
  exact (List.map_id' _).symm

/-- One more call before the first point. -/
theorem WovenBody.insert (h : WovenBody old new calls) {j : Nat} (hbelow : ∀ k, k < j → calls k = [])
    (hj : j ≤ old.instructions.length) (nodes : List Instruction) (extraStack : UInt16) :
    WovenBody old (new.insert j nodes extraStack) (prependBlock calls j nodes) := by
  refine ⟨?_, ?_⟩
  · rw [woven_prependBlock nodes hbelow hj, ← h.instructions]
    rfl
  · have hmoved : weavePosition (prependBlock calls j nodes) = shiftPosition j nodes.length ∘ weavePosition calls :=
      funext fun t => weavePosition_prependBlock nodes hbelow t
    simp only [Body.insert, Body.splice, Body.map, h.exceptions, List.map_map, hmoved, BodyException.map,
      Function.comp_def, Option.map_map]

theorem WovenBody.interleaved (h : WovenBody old new calls) (hended : ∀ j, old.instructions.length < j → calls j = [])
    (houtside : ∀ j, ∀ node ∈ calls j, outsideSubroutines node.opcode = true) :
    Interleaved old new (callBlocks calls) := by
  have hposition : weavePosition (callBlocks calls) = weavePosition calls :=
    funext fun j => weavePosition_congr j fun _ _ => List.length_map _
  refine ⟨?_, ?_, fun j hj => ?_, fun j node hnode t ht => ?_, fun j node hnode => ?_⟩
  · rw [h.instructions, woven, hposition]
    congr 1
    funext j
    simp only [placedBlock, callBlocks, List.map_map]
    rfl
  · rw [h.exceptions, hposition]
  · rw [callBlocks, hended j hj, List.map_nil]
  · obtain ⟨_, _, rfl⟩ := List.mem_map.mp hnode
    cases ht
  · obtain ⟨node, hmem, rfl⟩ := List.mem_map.mp hnode
    exact houtside j node hmem

end Woven

/-- A single call. -/
def callAt (at_ : Nat) (nodes : List Instruction) : Nat → List Instruction := prependBlock (fun _ => []) at_ nodes

/-- A body with straight-line code inserted runs like the old one with the code run whenever control arrives at the
instruction that it stands before. -/
theorem runsWith_insert {b : Body (Option Nat)} {at_ : Nat} (hat : at_ ≤ b.instructions.length)
    {nodes : List Instruction} (houtside : ∀ n ∈ nodes, outsideSubroutines n.opcode = true) (extraStack : UInt16) :
    RunsWith b (b.insert at_ nodes extraStack) (callBlocks (callAt at_ nodes)) := by
  have hinserted := (WovenBody.refl b).insert (fun _ _ => rfl) hat nodes extraStack
  refine (hinserted.interleaved (fun j hj => ?_) fun j node hnode => ?_).runsWith
  · rw [prependBlock_of_ne (by omega)]
  · by_cases hj : j = at_
    · rw [hj, prependBlock_self, List.append_nil] at hnode
      exact houtside node hnode
    · rw [prependBlock_of_ne hj] at hnode
      cases hnode

/-! ## What is seen of a run -/

section Visible

variable {φ ε : Type}

/-- A run of the method from the frame `s` shows these events and ends so. -/
def Body.Shows (b : Body (Option Nat)) (sem : FrameMeaning φ ε) (visible : ε → Bool) (s : φ) (events : List ε)
    (ends : Place Nat φ → Prop) : Prop :=
  ∃ es x, Path (b.flow.Step sem) (.before 0 s) es x ∧ es.filter visible = events ∧ ends x

/-- The two bodies show the same events, and return or throw the same after them. -/
structure SameVisibleRuns (sem : FrameMeaning φ ε) (visible : ε → Bool) (old new : Body (Option Nat)) : Prop where
  shown : ∀ s events, old.Shows sem visible s events (fun _ => True) ↔ new.Shows sem visible s events fun _ => True
  left : ∀ s events u, old.Shows sem visible s events (· = .left u) ↔ new.Shows sem visible s events (· = .left u)
  thrown : ∀ s events u, old.Shows sem visible s events (· = .thrown u) ↔ new.Shows sem visible s events (· = .thrown u)

variable {sem : FrameMeaning φ ε} {visible : ε → Bool} {old mid new : Body (Option Nat)}
  {blocks : Nat → List (BodyInstruction Nat)}

theorem SameVisibleRuns.refl (b : Body (Option Nat)) : SameVisibleRuns sem visible b b :=
  ⟨fun _ _ => .rfl, fun _ _ _ => .rfl, fun _ _ _ => .rfl⟩

theorem SameVisibleRuns.trans (h : SameVisibleRuns sem visible old mid) (h' : SameVisibleRuns sem visible mid new) :
    SameVisibleRuns sem visible old new :=
  ⟨fun s events => (h.shown s events).trans (h'.shown s events),
    fun s events u => (h.left s events u).trans (h'.left s events u),
    fun s events u => (h.thrown s events u).trans (h'.thrown s events u)⟩

/-- Blocks that hand on every frame are not seen. -/
theorem RunsWith.sameVisibleRuns (h : RunsWith old new blocks)
    (htransparent : ∀ i, Transparent sem visible (blockFlow (blocks i))) : SameVisibleRuns sem visible old new := by
  have hweak := Transparent.bisimulation (g := old.flow) htransparent
  have same {ends : Place Nat φ → Prop} (hends : ∀ {x y}, Pending sem visible (fun i => blockFlow (blocks i)) x y →
      (ends x ↔ ends (y.map (blockPosition blocks)))) (s : φ) (events : List ε) :
      old.Shows sem visible s events ends ↔ new.Shows sem visible s events ends := by
    have hstart : Pending sem visible (fun i => blockFlow (blocks i)) (.before 0 s) (.before (0, 0) s) :=
      .before (htransparent 0 s)
    constructor
    · rintro ⟨es, x, hpath, hevents, hx⟩
      obtain ⟨es', y, hmeant, hsame, hpending⟩ := hweak.path hstart hpath
      exact ⟨es', _, (h.runs sem s es' _).mpr ⟨y, hmeant, rfl⟩, hsame.trans hevents, (hends hpending).mp hx⟩
    · rintro ⟨es, x, hpath, hevents, hx⟩
      obtain ⟨y, hmeant, rfl⟩ := (h.runs sem s es x).mp hpath
      obtain ⟨es', x, hold, hsame, hpending⟩ := hweak.path_back hstart hmeant
      exact ⟨es', x, hold, hsame.trans hevents, (hends hpending).mpr hx⟩
  refine ⟨same fun _ => .rfl, fun s events u => same (fun hpending => ?_) s events,
    fun s events u => same (fun hpending => ?_) s events⟩
  · cases hpending with
    | before => simp [Place.map]
    | left => simp [Place.map]
    | thrown => simp [Place.map]
  · cases hpending with
    | before => simp [Place.map]
    | left => simp [Place.map]
    | thrown => simp [Place.map]

/-- An instruction without targets in a block. -/
theorem getElem?_straight {block : List (BodyInstruction Nat)} {k : Nat} {node : Instruction}
    (hnode : block[k]? = some node.plain) (hfalls : fallsThrough node.opcode = true) :
    (blockFlow block)[k]? = some (node.plain, [(.fallThrough, k + 1)]) := by
  rw [getElem?_blockFlow, hnode, Option.map_some, shape_plain, BodyInstruction.edgesAt]
  simp [Instruction.plain, hfalls, BodyInstruction.jumps, BodyInstruction.map]

/-- The nodes, one after the other, hand on every frame and show nothing. -/
def Returns (sem : FrameMeaning φ ε) (visible : ε → Bool) (nodes : List Instruction) : Prop :=
  ∀ s, sem.Passes visible .fallThrough (nodes.map (·.plain)) s s

theorem Returns.append {nodes nodes' : List Instruction} (h : Returns sem visible nodes)
    (h' : Returns sem visible nodes') : Returns sem visible (nodes ++ nodes') := by
  intro s
  rw [List.map_append]
  exact (h s).append (h' s)

theorem Returns.transparent {nodes : List Instruction} (h : Returns sem visible nodes)
    (hfalls : ∀ n ∈ nodes, fallsThrough n.opcode = true) :
    Transparent sem visible (blockFlow (nodes.map (·.plain))) := by
  intro s
  let ops : List (BodyInstruction Unit) := nodes.map (·.plain)
  have hrun : RunsTo sem visible (blockFlow (nodes.map (·.plain))) 0 s (0 + ops.length) s :=
    (h s).runsTo fun n o ho => by
      rw [List.getElem?_map] at ho
      obtain ⟨node, hnode, rfl⟩ := Option.map_eq_some_iff.mp ho
      rw [Nat.zero_add]
      exact getElem?_straight (by rw [List.getElem?_map, hnode]; rfl) (hfalls node (List.mem_of_getElem? hnode))
  rw [length_blockFlow, List.length_map]
  rwa [Nat.zero_add, List.length_map] at hrun

/-- Calls that return are not seen. -/
theorem sameVisibleRuns_insert {b : Body (Option Nat)} {at_ : Nat} (hat : at_ ≤ b.instructions.length)
    {nodes : List Instruction} (hfalls : ∀ n ∈ nodes, fallsThrough n.opcode = true) (extraStack : UInt16)
    (hreturns : Returns sem visible nodes) : SameVisibleRuns sem visible b (b.insert at_ nodes extraStack) := by
  have houtside : ∀ n ∈ nodes, outsideSubroutines n.opcode = true := fun n hn => outside_of_fallsThrough (hfalls n hn)
  refine (runsWith_insert hat houtside extraStack).sameVisibleRuns fun i => ?_
  by_cases hi : i = at_
  · rw [callBlocks, callAt, hi, prependBlock_self, List.append_nil]
    exact hreturns.transparent hfalls
  · rw [callBlocks, callAt, prependBlock_of_ne hi]
    exact fun s => .refl 0 s

end Visible

end Jni2Hook
