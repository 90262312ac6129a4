import Jni2Hook.Code.InsertionRoundTrip

/-!
# Insertion preserves control flow

The control-flow graph of a body has the indices of its instructions as nodes. An edge is labelled with the way control
takes it (`EdgeKind`); the list of edges that leave an instruction is computed (`Body.successors`). A `ret` leads behind
every `jsr` of the body. `codeGraph` reads the graph of an attribute from its instructions and its handlers alone.

* `successors_shiftInstruction`: an old instruction has its old edges, with the targets moved.
* `successors_inserted`: an inserted one falls through, and has the handlers of the instruction it stands before.
* `insertion_preserves_control_flow`: the graph of the stored body, with the inserted run and the instruction it stands
  before taken as one, is the old graph.
-/

namespace Jni2Hook

open Lib

/-! ## Edges -/

/-- The ways control goes from one instruction to another. A handler is named by its place in the table. -/
inductive EdgeKind
  | fallThrough
  | branch
  | switchDefault
  | switchKey (key : Int)
  | ret
  | handler (entry : Nat) (catchType : UInt16)
  deriving DecidableEq, Repr

/-- Control that no exception has taken. -/
def EdgeKind.isNormal : EdgeKind → Bool
  | .handler _ _ => false
  | _ => true

/-- Control goes on to the next instruction: not behind a jump, a switch, a return or a throw. -/
def fallsThrough (opcode : UInt8) : Bool :=
  opcode ∉ [Opc.goto, Opc.jsr, Opc.ret, Opc.tableswitch, Opc.lookupswitch, Opc.ireturn, Opc.lreturn, Opc.freturn,
    Opc.dreturn, Opc.areturn, Opc.return_, Opc.athrow, Opc.goto_w, Opc.jsr_w]

/-- The label of each target of an operand, in the order of `Operand.targets`. -/
def Operand.labels : Operand → List EdgeKind
  | .branch _ | .branchWide _ => [.branch]
  | .tableSwitch _ low _ targets =>
    .switchDefault :: (List.range targets.length).map fun k => .switchKey (low + k)
  | .lookupSwitch _ pairs => .switchDefault :: pairs.map fun p => .switchKey p.matchValue
  | _ => []

/-- The labelled targets that name an instruction. -/
def BodyInstruction.jumps (i : BodyInstruction (Option Nat)) : List (EdgeKind × Nat) :=
  (i.operand.labels.zip i.targets).filterMap fun x => x.2.map fun j => (x.1, j)

/-- The edge to a handler, from an instruction in its range. -/
def BodyException.edge (e : BodyException (Option Nat)) (entry i : Nat) : Option (EdgeKind × Nat) :=
  match e.start, e.stop, e.handler with
  | some start, some stop, some handler =>
    if start ≤ i ∧ i < stop then some (.handler entry e.catchType, handler) else none
  | _, _, _ => none

/-- The edges from an instruction to the handlers that guard it. -/
def Body.handlers (b : Body (Option Nat)) (i : Nat) : List (EdgeKind × Nat) :=
  b.exceptions.zipIdx.filterMap fun x => x.1.edge x.2 i

theorem handlers_not_normal (b : Body (Option Nat)) (i : Nat) : ∀ x ∈ b.handlers i, x.1.isNormal = false := by
  intro x hx
  obtain ⟨⟨e, entry⟩, -, hedge⟩ := List.mem_filterMap.mp hx
  simp only [BodyException.edge] at hedge
  split at hedge
  · split at hedge
    · cases hedge
      rfl
    · cases hedge
  · cases hedge

/-- A call of a subroutine. -/
def callsSubroutine (opcode : UInt8) : Bool := opcode = Opc.jsr ∨ opcode = Opc.jsr_w

/-- Where the subroutines return to that these instructions call, the first of them being that of index `k`. -/
def returnsFrom {ρ : Type} : Nat → List (BodyInstruction ρ) → List (EdgeKind × Nat)
  | _, [] => []
  | k, i :: rest => (if callsSubroutine i.opcode then [(.ret, k + 1)] else []) ++ returnsFrom (k + 1) rest

/-- The edges of a `ret`: behind each `jsr`. -/
def Body.returns (b : Body (Option Nat)) (node : BodyInstruction (Option Nat)) : List (EdgeKind × Nat) :=
  if node.opcode = Opc.ret then returnsFrom 0 b.instructions else []

/-- The edges that leave an instruction. -/
def Body.successors (b : Body (Option Nat)) (i : Nat) : List (EdgeKind × Nat) :=
  match b.instructions[i]? with
  | none => []
  | some node =>
    (if fallsThrough node.opcode then [(.fallThrough, i + 1)] else []) ++ node.jumps ++ b.returns node ++ b.handlers i

/-- The control-flow graph of a loaded body. -/
def CodeEditor.Edge (editor : CodeEditor) (i : Nat) (kind : EdgeKind) (j : Nat) : Prop :=
  (kind, j) ∈ editor.resolve.successors i

/-! ## The graph of an attribute -/

/-- An editor without its tables. -/
def CodeEditor.bare (editor : CodeEditor) : CodeEditor :=
  { editor with
    lineNumbers := none, locals := none, localTypes := none, stackMap := none, otherAttributes := []
    typeAnnotations := [] }

/-- The instructions and the handlers of a Code attribute. -/
def codeGraph (code : AttributeInfo) : Except ClassfileStatus (Body (Option Nat)) := do
  let parsed ← codeAttributeParse code
  let instructions ← instructionListParse parsed.code
  return CodeEditor.resolve
    ⟨parsed.maxStack, parsed.maxLocals, instructions, parsed.exceptions, none, none, none, none, [], []⟩

theorem loadAttribute_bare {pool : ConstantPool} {editor next : CodeEditor} {nested : AttributeInfo}
    (h : loadAttribute pool editor nested = .ok next) : next.bare = editor.bare := by
  unfold loadAttribute at h
  dsimp only at h
  split at h
  · obtain ⟨_, -, h⟩ := bind_ok h
    cases h
    rfl
  split at h
  · obtain ⟨_, -, h⟩ := bind_ok h
    cases h
    rfl
  split at h
  · obtain ⟨_, -, h⟩ := bind_ok h
    cases h
    rfl
  split at h
  · split at h
    · cases h
    · obtain ⟨_, -, h⟩ := bind_ok h
      cases h
      rfl
  · obtain ⟨_, -, h⟩ := bind_ok h
    split at h
    · obtain ⟨_, -, h⟩ := bind_ok h
      cases h
      rfl
    · cases h
      rfl

theorem loadAttributes_bare {pool : ConstantPool} : ∀ {attributes : List AttributeInfo} {editor loaded : CodeEditor},
    loadAttributes pool editor attributes = .ok loaded → loaded.bare = editor.bare
  | [], editor, loaded, h => by
    cases h
    rfl
  | nested :: rest, editor, loaded, h => by
    obtain ⟨next, hnext, hrest⟩ := bind_ok h
    exact (loadAttributes_bare hrest).trans (loadAttribute_bare hnext)

/-- The graph of an attribute that is loaded is that of the editor. -/
theorem codeGraph_of_load {pool : ConstantPool} {code : AttributeInfo} {editor : CodeEditor}
    (h : codeEditorLoad code pool = .ok editor) : codeGraph code = .ok editor.bare.resolve := by
  obtain ⟨parsed, hparse, h⟩ := bind_ok h
  obtain ⟨instructions, hlist, h⟩ := bind_ok h
  rw [codeGraph, bind_of_ok hparse, bind_of_ok hlist, loadAttributes_bare h]
  rfl

/-- An attribute is loaded to the same instructions and handlers under every pool. -/
theorem bare_of_load {pool pool' : ConstantPool} {code : AttributeInfo} {editor editor' : CodeEditor}
    (h : codeEditorLoad code pool = .ok editor) (h' : codeEditorLoad code pool' = .ok editor') :
    editor'.bare = editor.bare := by
  obtain ⟨parsed, hparsed, h⟩ := bind_ok h
  obtain ⟨instructions, hinstructions, h⟩ := bind_ok h
  obtain ⟨parsed', hparsed', h'⟩ := bind_ok h'
  obtain ⟨instructions', hinstructions', h'⟩ := bind_ok h'
  rw [hparsed] at hparsed'
  cases hparsed'
  rw [hinstructions] at hinstructions'
  cases hinstructions'
  exact (loadAttributes_bare h').trans (loadAttributes_bare h).symm

theorem codeInstructions_of_load {pool : ConstantPool} {code : AttributeInfo} {editor : CodeEditor}
    (h : codeEditorLoad code pool = .ok editor) : codeInstructions code = .ok editor.instructions := by
  obtain ⟨parsed, hparse, h⟩ := bind_ok h
  obtain ⟨instructions, hlist, h⟩ := bind_ok h
  rw [codeInstructions, bind_of_ok hparse, hlist]
  exact congrArg Except.ok (congrArg CodeEditor.instructions (loadAttributes_bare h)).symm

/-- The graph of an attribute that is stored is that of the editor. -/
theorem codeGraph_of_store {editor : CodeEditor} {code stored : AttributeInfo} (hlaid : editor.instructions.Laid)
    (hexceptions : editor.exceptions.length ≤ classfileMaxCount)
    (hothers : ∀ a ∈ editor.otherAttributes, a.WellFormed) (h : codeEditorStore editor code = .ok stored) :
    codeGraph stored = .ok editor.bare.resolve ∧ stored.attributeNameIndex = code.attributeNameIndex := by
  obtain ⟨bytecode, attributes, hencode, -, hname, hparse⟩ := codeAttributeParse_of_store hexceptions hothers h
  refine ⟨?_, hname⟩
  rw [codeGraph, bind_of_ok hparse, bind_of_ok (parse_of_encode hlaid hencode).1]
  rfl

/-! ## The edges of a body with nodes inserted -/

/-- The old instruction that an instruction stands for: those of the inserted run stand for the one behind it. -/
def projectIndex (at_ count i : Nat) : Nat := if i < at_ then i else if i ≤ at_ + count then at_ else i - count

theorem projectIndex_shiftInstruction (at_ count i : Nat) :
    projectIndex at_ count (shiftInstruction at_ count i) = i := by
  unfold projectIndex shiftInstruction
  by_cases hi : i < at_
  · simp only [hi, if_true]
  · simp only [hi, if_false]
    split
    · omega
    · split <;> omega

theorem projectIndex_shiftPosition (at_ count j : Nat) : projectIndex at_ count (shiftPosition at_ count j) = j := by
  unfold projectIndex shiftPosition
  by_cases hj : j ≤ at_
  · simp only [hj, if_true]
    split
    · rfl
    · split <;> omega
  · simp only [hj, if_false]
    split
    · omega
    · split <;> omega

/-- Positions of the block are positions of its first instruction. -/
theorem shiftPosition_of_block {at_ count j : Nat} (h₀ : at_ ≤ shiftPosition at_ count j)
    (h₁ : shiftPosition at_ count j ≤ at_ + count) : shiftPosition at_ count j = at_ := by
  unfold shiftPosition at h₀ h₁ ⊢
  by_cases hj : j ≤ at_
  · simp only [hj, if_true] at h₀ ⊢
    omega
  · simp only [hj, if_false] at h₁
    omega

/-- Every index is that of an inserted node or of an old instruction. -/
theorem index_cases (at_ count i : Nat) :
    (at_ ≤ i ∧ i < at_ + count) ∨ ∃ old, i = shiftInstruction at_ count old := by
  by_cases hlt : i < at_
  · exact .inr ⟨i, by rw [shiftInstruction, if_pos hlt]⟩
  · by_cases hin : i < at_ + count
    · exact .inl ⟨by omega, hin⟩
    · refine .inr ⟨i - count, ?_⟩
      rw [shiftInstruction, if_neg (by omega)]
      omega

theorem fallsThrough_of_isStraightLine {node : Instruction} (h : node.isStraightLine = true) :
    fallsThrough node.opcode = true := by
  by_contra hstops
  obtain ⟨offset, opcode, wide, operand⟩ := node
  simp only [fallsThrough, List.mem_cons, List.not_mem_nil, or_false, decide_not, Bool.not_eq_true',
    decide_eq_false_iff_not, not_not] at hstops
  rcases hstops with rfl | rfl | rfl | rfl | rfl | rfl | rfl | rfl | rfl | rfl | rfl | rfl | rfl | rfl <;> cases h

theorem BodyInstruction.jumps_map (f : Nat → Nat) (i : BodyInstruction (Option Nat)) :
    (i.map (Option.map f)).jumps = i.jumps.map (Prod.map id f) := by
  simp only [BodyInstruction.jumps, BodyInstruction.map, List.zip_map_right, List.filterMap_map, List.map_filterMap]
  refine List.filterMap_congr fun x _ => ?_
  obtain ⟨kind, target⟩ := x
  cases target <;> rfl

/-- The range of a handler covers a moved instruction when it covered the old one. -/
theorem BodyException.edge_shiftInstruction (at_ count : Nat) (e : BodyException (Option Nat)) (entry i : Nat) :
    (e.map (Option.map (shiftPosition at_ count))).edge entry (shiftInstruction at_ count i) =
      (e.edge entry i).map (Prod.map id (shiftPosition at_ count)) := by
  obtain ⟨start, stop, handler, catchType⟩ := e
  cases start <;> cases stop <;> cases handler <;> try rfl
  rename_i a b h
  have covers : (shiftPosition at_ count a ≤ shiftInstruction at_ count i ∧
      shiftInstruction at_ count i < shiftPosition at_ count b) ↔ (a ≤ i ∧ i < b) := by
    unfold shiftPosition shiftInstruction
    constructor
    · intro hc
      split at hc <;> split at hc <;> split at hc <;> omega
    · intro hc
      split <;> split <;> split <;> omega
  simp only [BodyException.edge, BodyException.map, Option.map_some, covers]
  split <;> rfl

/-- It covers the inserted nodes when it covered the instruction they stand before. -/
theorem BodyException.edge_inserted {at_ count i : Nat} (h₀ : at_ ≤ i) (h₁ : i < at_ + count)
    (e : BodyException (Option Nat)) (entry : Nat) :
    (e.map (Option.map (shiftPosition at_ count))).edge entry i =
      (e.edge entry at_).map (Prod.map id (shiftPosition at_ count)) := by
  obtain ⟨start, stop, handler, catchType⟩ := e
  cases start <;> cases stop <;> cases handler <;> try rfl
  rename_i a b h
  have covers : (shiftPosition at_ count a ≤ i ∧ i < shiftPosition at_ count b) ↔ (a ≤ at_ ∧ at_ < b) := by
    unfold shiftPosition
    constructor
    · intro hc
      split at hc <;> split at hc <;> omega
    · intro hc
      split <;> split <;> omega
  simp only [BodyException.edge, BodyException.map, Option.map_some, covers]
  split <;> rfl

theorem filterMap_zipIdx_map {α β : Type} (f : α → α) (g : β → β) (edge edge' : α → Nat → Option β)
    (h : ∀ x entry, edge' (f x) entry = (edge x entry).map g) : ∀ (l : List α) (n : Nat),
    ((l.map f).zipIdx n).filterMap (fun x => edge' x.1 x.2) = ((l.zipIdx n).filterMap fun x => edge x.1 x.2).map g
  | [], _ => rfl
  | x :: l, n => by
    have rest := filterMap_zipIdx_map f g edge edge' h l (n + 1)
    simp only [List.map_cons, List.zipIdx_cons, List.filterMap_cons, h, rest]
    cases edge x n <;> rfl

/-! Subroutines -/

section Returns

variable {ρ σ : Type}

/-- Neither a call of a subroutine nor the return from one. -/
def outsideSubroutines (opcode : UInt8) : Bool := !callsSubroutine opcode && opcode ≠ Opc.ret

theorem outside_of_fallsThrough {opcode : UInt8} (h : fallsThrough opcode = true) :
    outsideSubroutines opcode = true := by
  simp only [fallsThrough, List.mem_cons, not_or, decide_eq_true_eq] at h
  simp [outsideSubroutines, callsSubroutine, h]

theorem callsSubroutine_of_outside {opcode : UInt8} (h : outsideSubroutines opcode = true) :
    callsSubroutine opcode = false := by
  simp only [outsideSubroutines, Bool.and_eq_true, Bool.not_eq_true'] at h
  exact h.1

theorem returns_of_ne (b : Body (Option Nat)) {node : BodyInstruction (Option Nat)} (h : node.opcode ≠ Opc.ret) :
    b.returns node = [] :=
  if_neg h

theorem returns_of_outside (b : Body (Option Nat)) {node : BodyInstruction (Option Nat)}
    (h : outsideSubroutines node.opcode = true) : b.returns node = [] := by
  simp only [outsideSubroutines, Bool.and_eq_true, decide_eq_true_eq] at h
  exact returns_of_ne b h.2

theorem map_edge {ρ ρ' : Type} (f : ρ → ρ') (kind : EdgeKind) (taken : Bool) (p : ρ) :
    (if taken then [(kind, p)] else []).map (Prod.map id f) = if taken then [(kind, f p)] else [] := by
  cases taken <;> rfl

theorem returnsFrom_append (l l' : List (BodyInstruction ρ)) (k : Nat) :
    returnsFrom k (l ++ l') = returnsFrom k l ++ returnsFrom (k + l.length) l' := by
  induction l generalizing k with
  | nil => rfl
  | cons i l ih =>
    rw [List.cons_append, returnsFrom, returnsFrom, ih, List.append_assoc, List.length_cons, Nat.add_assoc,
      Nat.add_comm 1]

theorem returnsFrom_outside {l : List (BodyInstruction ρ)} (h : ∀ i ∈ l, outsideSubroutines i.opcode = true) (k : Nat) :
    returnsFrom k l = [] := by
  induction l generalizing k with
  | nil => rfl
  | cons i l ih =>
    rw [returnsFrom, callsSubroutine_of_outside (h i List.mem_cons_self),
      ih fun j hj => h j (List.mem_cons_of_mem _ hj)]
    rfl

/-- Instructions that have moved by `d` return to where they are now. -/
theorem returnsFrom_moved {g : Nat → Nat} {d : Nat} (f : BodyInstruction ρ → BodyInstruction σ)
    (hf : ∀ i, (f i).opcode = i.opcode) {l : List (BodyInstruction ρ)} {k : Nat}
    (hg : ∀ j, k ≤ j → j < k + l.length → g (j + 1) = j + d + 1) :
    returnsFrom (k + d) (l.map f) = (returnsFrom k l).map (Prod.map id g) := by
  induction l generalizing k with
  | nil => rfl
  | cons i l ih =>
    have hfirst := hg k (Nat.le_refl k) (by simp)
    have hrest := @ih (k + 1) fun j hle hlt => hg j (by omega) (by rw [List.length_cons]; omega)
    rw [List.map_cons, returnsFrom, returnsFrom, hf, List.map_append, ← hrest, map_edge, hfirst, Nat.add_right_comm]

/-- When the places to return to have moved, each `ret` returns to where they are now. -/
theorem returns_moved {b b' : Body (Option Nat)} {g : Nat → Nat}
    (h : returnsFrom 0 b'.instructions = (returnsFrom 0 b.instructions).map (Prod.map id g))
    (f : Option Nat → Option Nat) (node : BodyInstruction (Option Nat)) :
    b'.returns (node.map f) = (b.returns node).map (Prod.map id g) := by
  by_cases hret : node.opcode = Opc.ret
  · have hold : b.returns node = returnsFrom 0 b.instructions := if_pos hret
    rw [hold, ← h]
    exact if_pos hret
  · rw [returns_of_ne b hret]
    exact returns_of_ne b' hret

theorem mem_returnsFrom {l : List (BodyInstruction ρ)} {k j : Nat} {kind : EdgeKind} :
    (kind, j) ∈ returnsFrom k l ↔ kind = .ret ∧ ∃ n node, l[n]? = some node ∧ callsSubroutine node.opcode = true ∧
      j = k + n + 1 := by
  induction l generalizing k with
  | nil => simp [returnsFrom]
  | cons i l ih =>
    rw [returnsFrom, List.mem_append, ih]
    constructor
    · rintro (hmem | ⟨rfl, n, node, hnode, hcalls, rfl⟩)
      · split at hmem
        · rename_i hcalls
          cases List.mem_singleton.mp hmem
          exact ⟨rfl, 0, i, rfl, hcalls, rfl⟩
        · cases hmem
      · exact ⟨rfl, n + 1, node, hnode, hcalls, by omega⟩
    · rintro ⟨rfl, n, node, hnode, hcalls, rfl⟩
      cases n with
      | zero =>
        cases hnode
        refine .inl ?_
        rw [if_pos hcalls]
        exact List.mem_singleton.mpr rfl
      | succ n => exact .inr ⟨rfl, n, node, hnode, hcalls, by omega⟩

end Returns

/-! Any instructions put into a body -/

/-- A body with instructions put before the one of index `at_`, and every reference moved. -/
def Body.spliceShifted (b : Body (Option Nat)) (at_ : Nat) (nodes : List (BodyInstruction (Option Nat))) :
    Body (Option Nat) :=
  (b.map (Option.map (shiftPosition at_ nodes.length))
    (Option.map (shiftInstruction at_ nodes.length))).splice at_ nodes

section Spliced

variable (b : Body (Option Nat)) (at_ : Nat) (nodes : List (BodyInstruction (Option Nat)))

theorem handlers_spliced_moved (i : Nat) :
    (b.spliceShifted at_ nodes).handlers (shiftInstruction at_ nodes.length i) =
      (b.handlers i).map (Prod.map id (shiftPosition at_ nodes.length)) :=
  filterMap_zipIdx_map (BodyException.map _) _ (fun e entry => e.edge entry i)
    (fun e entry => e.edge entry (shiftInstruction at_ nodes.length i))
    (fun e entry => BodyException.edge_shiftInstruction at_ nodes.length e entry i) b.exceptions 0

theorem handlers_spliced_new {i : Nat} (h₀ : at_ ≤ i) (h₁ : i < at_ + nodes.length) :
    (b.spliceShifted at_ nodes).handlers i =
      (b.handlers at_).map (Prod.map id (shiftPosition at_ nodes.length)) :=
  filterMap_zipIdx_map (BodyException.map _) _ (fun e entry => e.edge entry at_) (fun e entry => e.edge entry i)
    (fun e entry => BodyException.edge_inserted h₀ h₁ e entry) b.exceptions 0

variable {b at_}

theorem instructions_spliced_moved (hat : at_ ≤ b.instructions.length) (i : Nat) :
    (b.spliceShifted at_ nodes).instructions[shiftInstruction at_ nodes.length i]? =
      b.instructions[i]?.map (·.map (Option.map (shiftPosition at_ nodes.length))) := by
  have len : (b.instructions.take at_).length = at_ := by simp [hat]
  simp only [Body.spliceShifted, Body.splice, Body.map, spliceAt, shiftInstruction, ← List.map_take, ← List.map_drop]
  split
  · rename_i hlt
    rw [List.getElem?_append_left (by rw [List.length_map, len]; exact hlt), List.getElem?_map,
      List.getElem?_take_of_lt hlt]
  · rename_i hge
    rw [List.getElem?_append_right (by rw [List.length_map, len]; omega),
      List.getElem?_append_right (by simp only [List.length_map, len]; omega), List.getElem?_map, List.getElem?_drop]
    simp only [List.length_map, len]
    congr 2
    omega

theorem instructions_spliced_new (hat : at_ ≤ b.instructions.length) {i : Nat} (h₀ : at_ ≤ i)
    (h₁ : i < at_ + nodes.length) : (b.spliceShifted at_ nodes).instructions[i]? = nodes[i - at_]? := by
  have len : (b.instructions.take at_).length = at_ := by simp [hat]
  simp only [Body.spliceShifted, Body.splice, Body.map, spliceAt, ← List.map_take, ← List.map_drop]
  rw [List.getElem?_append_right (by rw [List.length_map, len]; exact h₀),
    List.getElem?_append_left (by simp only [List.length_map, len]; omega)]
  simp only [List.length_map, len]

variable (houtside : ∀ n ∈ nodes, outsideSubroutines n.opcode = true)

include houtside

/-- Subroutines return to where they did, moved: behind a `jsr` they come to what was put in there. -/
theorem returns_spliced (hat : at_ ≤ b.instructions.length) (node : BodyInstruction (Option Nat)) :
    (b.spliceShifted at_ nodes).returns (node.map (Option.map (shiftPosition at_ nodes.length))) =
      (b.returns node).map (Prod.map id (shiftPosition at_ nodes.length)) := by
  have len : (b.instructions.take at_).length = at_ := by simp [hat]
  have front := @returnsFrom_moved _ _ (shiftPosition at_ nodes.length) 0
    (fun i : BodyInstruction (Option Nat) => i.map (Option.map (shiftPosition at_ nodes.length))) (fun _ => rfl)
    (b.instructions.take at_) 0 fun j _ hj => by
      rw [len] at hj
      exact if_pos (by omega)
  have rear := @returnsFrom_moved _ _ (shiftPosition at_ nodes.length) nodes.length
    (fun i : BodyInstruction (Option Nat) => i.map (Option.map (shiftPosition at_ nodes.length))) (fun _ => rfl)
    (b.instructions.drop at_) at_ fun j hj _ => by
      rw [shiftPosition, if_neg (by omega)]
      omega
  refine returns_moved ?_ _ node
  simp only [Body.spliceShifted, Body.splice, Body.map, spliceAt, ← List.map_take, ← List.map_drop]
  rw [returnsFrom_append, returnsFrom_append, returnsFrom_outside houtside, List.nil_append, List.length_map, len,
    Nat.zero_add, rear]
  conv_rhs => rw [← List.take_append_drop at_ b.instructions, returnsFrom_append, len, Nat.zero_add, List.map_append]
  exact congrArg (· ++ _) front

/-- An old instruction has its old edges, with the targets moved. -/
theorem successors_spliced_moved (hat : at_ ≤ b.instructions.length) (i : Nat) :
    (b.spliceShifted at_ nodes).successors (shiftInstruction at_ nodes.length i) =
      (b.successors i).map (Prod.map id (shiftPosition at_ nodes.length)) := by
  have next : shiftInstruction at_ nodes.length i + 1 = shiftPosition at_ nodes.length (i + 1) := by
    unfold shiftInstruction shiftPosition
    split <;> split <;> omega
  unfold Body.successors
  rw [instructions_spliced_moved nodes hat, handlers_spliced_moved]
  cases b.instructions[i]? with
  | none => rfl
  | some node =>
    simp only [Option.map_some, List.map_append, BodyInstruction.jumps_map, returns_spliced nodes houtside hat]
    congr 3
    simp only [BodyInstruction.map, next]
    split <;> rfl

/-- An instruction that was put in has its own edges, and the handlers of the instruction it stands before. -/
theorem successors_spliced_new (hat : at_ ≤ b.instructions.length) {i : Nat} (h₀ : at_ ≤ i)
    {node : BodyInstruction (Option Nat)} (hnode : nodes[i - at_]? = some node) :
    (b.spliceShifted at_ nodes).successors i =
      (if fallsThrough node.opcode then [(.fallThrough, i + 1)] else []) ++ node.jumps ++
        (b.handlers at_).map (Prod.map id (shiftPosition at_ nodes.length)) := by
  have h₁ := (List.getElem?_eq_some_iff.mp hnode).1
  have hown := houtside node (List.mem_of_getElem? hnode)
  unfold Body.successors
  rw [instructions_spliced_new nodes hat h₀ (by omega), hnode, handlers_spliced_new b at_ nodes h₀ (by omega)]
  dsimp only
  rw [returns_of_outside _ hown, List.append_nil]

end Spliced

/-! Straight-line code put into a body -/

section Inserted

variable {b : Body (Option Nat)} {at_ : Nat} (nodes : List Instruction) (extraStack : UInt16)

/-- The stack is not part of the graph. -/
theorem successors_insert (i : Nat) :
    (b.insert at_ nodes extraStack).successors i = (b.spliceShifted at_ (nodes.map (·.plain))).successors i := by
  simp only [Body.insert, Body.spliceShifted, List.length_map]
  rfl

theorem instructions_insert :
    (b.insert at_ nodes extraStack).instructions = (b.spliceShifted at_ (nodes.map (·.plain))).instructions := by
  simp only [Body.insert, Body.spliceShifted, List.length_map]

theorem instructions_insert_moved (hat : at_ ≤ b.instructions.length) (i : Nat) :
    (b.insert at_ nodes extraStack).instructions[shiftInstruction at_ nodes.length i]? =
      b.instructions[i]?.map (·.map (Option.map (shiftPosition at_ nodes.length))) := by
  have moved := instructions_spliced_moved (nodes.map fun node => node.plain (ρ := Option Nat)) hat i
  rw [List.length_map] at moved
  rw [instructions_insert, moved]

theorem instructions_insert_new (hat : at_ ≤ b.instructions.length) {k : Nat} (hk : k < nodes.length) :
    (b.insert at_ nodes extraStack).instructions[at_ + k]? = nodes[k]?.map (·.plain) := by
  have new := instructions_spliced_new (nodes.map fun node => node.plain (ρ := Option Nat)) hat (Nat.le_add_right at_ k)
    (by rw [List.length_map]; omega)
  rw [Nat.add_sub_cancel_left, List.getElem?_map] at new
  rw [instructions_insert, new]

variable {nodes} (hs : ∀ n ∈ nodes, n.isStraightLine = true)

include hs

theorem outside_plain : ∀ n ∈ nodes.map fun node => node.plain (ρ := Option Nat),
    outsideSubroutines n.opcode = true := by
  intro n hn
  obtain ⟨node, hnode, rfl⟩ := List.mem_map.mp hn
  exact outside_of_fallsThrough (fallsThrough_of_isStraightLine (hs node hnode))

/-- An old instruction has its old edges, with the targets moved. -/
theorem successors_shiftInstruction (hat : at_ ≤ b.instructions.length) (i : Nat) :
    (b.insert at_ nodes extraStack).successors (shiftInstruction at_ nodes.length i) =
      (b.successors i).map (Prod.map id (shiftPosition at_ nodes.length)) := by
  have moved := successors_spliced_moved (nodes.map fun node => node.plain (ρ := Option Nat)) (outside_plain hs) hat i
  rw [List.length_map] at moved
  rw [successors_insert, moved]

/-- An inserted one falls through, and has the handlers of the instruction it stands before. -/
theorem successors_inserted (hat : at_ ≤ b.instructions.length) {i : Nat} (h₀ : at_ ≤ i)
    (h₁ : i < at_ + nodes.length) : (b.insert at_ nodes extraStack).successors i =
      (.fallThrough, i + 1) :: (b.handlers at_).map (Prod.map id (shiftPosition at_ nodes.length)) := by
  have hi : i - at_ < nodes.length := by omega
  have straight := fallsThrough_of_isStraightLine (hs nodes[i - at_] (List.getElem_mem hi))
  have hnode : (nodes.map fun node => node.plain (ρ := Option Nat))[i - at_]? = some nodes[i - at_].plain := by
    rw [List.getElem?_map, List.getElem?_eq_getElem hi]
    rfl
  rw [successors_insert, successors_spliced_new _ (outside_plain hs) hat h₀ hnode]
  simp [Instruction.plain, BodyInstruction.jumps, straight]

end Inserted

/-! ## The graph of the stored body -/

/-- A step inside the block: from one node of the inserted run to the next, or to the instruction behind the run. -/
def BlockStep (at_ count i : Nat) (kind : EdgeKind) (j : Nat) : Prop :=
  kind = .fallThrough ∧ j = i + 1 ∧ at_ ≤ i ∧ i < at_ + count

/-- The edges of the new graph, one by one. -/
theorem edge_insert_cases {b : Body (Option Nat)} {at_ : Nat} {nodes : List Instruction} {extraStack : UInt16}
    (hat : at_ < b.instructions.length) (hs : ∀ n ∈ nodes, n.isStraightLine = true) {i j : Nat} {kind : EdgeKind}
    (h : (kind, j) ∈ (b.insert at_ nodes extraStack).successors i) :
    BlockStep at_ nodes.length i kind j ∨ ∃ old target, (kind, target) ∈ b.successors old ∧
      projectIndex at_ nodes.length i = old ∧ j = shiftPosition at_ nodes.length target := by
  have moved {l : List (EdgeKind × Nat)} (hmem : (kind, j) ∈ l.map (Prod.map id (shiftPosition at_ nodes.length))) :
      ∃ target, (kind, target) ∈ l ∧ j = shiftPosition at_ nodes.length target := by
    obtain ⟨⟨kind', target⟩, htarget, heq⟩ := List.mem_map.mp hmem
    cases heq
    exact ⟨target, htarget, rfl⟩
  rcases index_cases at_ nodes.length i with ⟨h₀, h₁⟩ | ⟨old, rfl⟩
  · rw [successors_inserted extraStack hs (Nat.le_of_lt hat) h₀ h₁] at h
    rcases List.mem_cons.mp h with heq | h
    · cases heq
      exact .inl ⟨rfl, rfl, h₀, h₁⟩
    · -- a handler that guards the inserted node guards the instruction behind the run
      obtain ⟨target, htarget, rfl⟩ := moved h
      refine .inr ⟨at_, target, ?_, ?_, rfl⟩
      · unfold Body.successors
        rw [List.getElem?_eq_getElem hat]
        exact List.mem_append_right _ htarget
      · unfold projectIndex
        rw [if_neg (by omega), if_pos (by omega)]
  · rw [successors_shiftInstruction extraStack hs (Nat.le_of_lt hat)] at h
    obtain ⟨target, htarget, rfl⟩ := moved h
    exact .inr ⟨old, target, htarget, projectIndex_shiftInstruction _ _ _, rfl⟩

/-- **Inserting straight-line code preserves control flow.** For every Code attribute that is loaded, every instruction
`at_` of it and every run of straight-line nodes that is not empty: when the insertion at that instruction and the store
succeed, the stored attribute is loaded again, and with the run and the instruction `at_` behind it taken as one

* every edge is a step inside that block or an old edge of the same kind,
* an edge that is no step inside the block and goes to it goes to the first node of the run, and
* every old edge is there. -/
theorem insertion_preserves_control_flow {pool : ConstantPool} {code target stored : AttributeInfo}
    {editor edited : CodeEditor} {at_ : Nat} {node : Instruction} {nodes : List Instruction} {extraStack : UInt16}
    (hload : codeEditorLoad code pool = .ok editor) (hnode : editor.instructions.items[at_]? = some node)
    (hnodes : ∀ n ∈ nodes, n.Encodable ∧ n.isStraightLine = true) (hne : nodes ≠ [])
    (hinsert : codeEditorInsert editor node.offset nodes extraStack = (.ok (), edited))
    (hstore : codeEditorStore edited target = .ok stored) :
    ∃ reloaded, codeEditorLoad stored pool = .ok reloaded ∧
      (∀ i kind j, reloaded.Edge i kind j → BlockStep at_ nodes.length i kind j ∨
        editor.Edge (projectIndex at_ nodes.length i) kind (projectIndex at_ nodes.length j)) ∧
      (∀ i kind j, reloaded.Edge i kind j → ¬BlockStep at_ nodes.length i kind j →
        at_ ≤ j → j ≤ at_ + nodes.length → j = at_) ∧
      ∀ i kind j, editor.Edge i kind j → ∃ i' j', reloaded.Edge i' kind j' ∧
        ¬BlockStep at_ nodes.length i' kind j' ∧ projectIndex at_ nodes.length i' = i ∧
        projectIndex at_ nodes.length j' = j := by
  obtain ⟨reloaded, hre, hview⟩ := reload_inserted hload hnode hnodes hne hinsert hstore
  have hat : at_ < editor.resolve.instructions.length := by
    have := (List.getElem?_eq_some_iff.mp hnode).1
    simpa [CodeEditor.resolve, CodeEditor.body, Body.map] using this
  have edges {i j : Nat} {kind : EdgeKind} (h : reloaded.Edge i kind j) := by
    rw [CodeEditor.Edge, hview] at h
    exact edge_insert_cases hat (fun n hn => (hnodes n hn).2) h
  refine ⟨reloaded, hre, fun i kind j h => ?_, fun i kind j h hstep h₀ h₁ => ?_, fun i kind j h => ?_⟩
  · rcases edges h with hstep | ⟨old, place, hold, rfl, rfl⟩
    · exact .inl hstep
    · refine .inr ?_
      rw [projectIndex_shiftPosition]
      exact hold
  · rcases edges h with hblock | ⟨old, place, hold, rfl, rfl⟩
    · exact absurd hblock hstep
    · exact shiftPosition_of_block h₀ h₁
  · refine ⟨shiftInstruction at_ nodes.length i, shiftPosition at_ nodes.length j, ?_, ?_,
      projectIndex_shiftInstruction _ _ _, projectIndex_shiftPosition _ _ _⟩
    · rw [CodeEditor.Edge, hview, successors_shiftInstruction extraStack (fun n hn => (hnodes n hn).2)
        (Nat.le_of_lt hat)]
      exact List.mem_map_of_mem h
    · -- an old instruction is not in the run
      rintro ⟨-, -, h₀, h₁⟩
      unfold shiftInstruction at h₀ h₁
      split at h₁ <;> split at h₀ <;> omega

theorem insertion_preserves_control_flow_branching :
    ∃ reloaded, codeEditorLoad branchingStored branchingPool = .ok reloaded ∧
      ∀ i kind j, reloaded.Edge i kind j → BlockStep 2 2 i kind j ∨
        branchingEditor.Edge (projectIndex 2 2 i) kind (projectIndex 2 2 j) := by
  obtain ⟨reloaded, hre, hedges, -⟩ := @insertion_preserves_control_flow branchingPool branchingCode branchingCode
    branchingStored branchingEditor (codeEditorInsert branchingEditor 4 forwardSeven 2).2 2 ⟨4, Opc.nop, false, .none⟩
    forwardSeven 2 (by decide +kernel) rfl encodable_forwardSeven (by decide) (Prod.ext (by decide +kernel) rfl)
    (by decide +kernel)
  exact ⟨reloaded, hre, hedges⟩

end Jni2Hook
