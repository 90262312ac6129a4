import Jni2Hook.Code.ControlFlow
import Jni2Hook.Code.TraceExact
import Jni2Hook.Transform.DescriptorReader

/-!
# Paths of a constructor

What happens to `this` in a constructor, from the operand stacks of the JVMS: the paths go over all edges of the
control-flow graph, handlers and subroutines included, and carry the slots that hold the original `this`, and those that
hold an address to return to.

* `jvmTable`: what each instruction takes and leaves.
* `ThisState.execute`: one instruction, as the verifier lets it pass.
* `Arrives`: the states that paths bring to an instruction; `Verified`: what the verifier promises of them.
* `thisCalls`: the ends of the calls that initialise `this`.
* `Verifies.verified`: a list of states that is closed under steps is enough to check a constructor.
-/

namespace Jni2Hook

open Lib

/-! ## Instructions -/

/-- The instructions by what they do to the slots, from their descriptions in JVMS 6.5. -/
def jvmTable : List (SlotShape × List Nat) :=
  [ -- nop, iinc, goto, ret, return, goto_w
    (.replace 0 0, [0, 132, 167, 169, 177, 200]),
    -- constants of one slot, jsr, new, jsr_w
    (.replace 0 1, [1, 2, 3, 4, 5, 6, 7, 8, 11, 12, 13, 16, 17, 18, 19, 168, 187, 201]),
    -- lconst, dconst, ldc2_w
    (.replace 0 2, [9, 10, 14, 15, 20]),
    -- pop, if<cond>, the switches, ireturn, freturn, areturn, athrow, the monitors, ifnull, ifnonnull
    (.replace 1 0, [87, 153, 154, 155, 156, 157, 158, 170, 171, 172, 174, 176, 191, 194, 195, 198, 199]),
    -- ineg, fneg, i2f, f2i, i2b, i2c, i2s, newarray, anewarray, arraylength, instanceof
    (.replace 1 1, [116, 118, 134, 139, 145, 146, 147, 188, 189, 190, 193]),
    -- i2l, i2d, f2l, f2d
    (.replace 1 2, [133, 135, 140, 141]),
    -- pop2, if_icmp<cond>, if_acmp<cond>, lreturn, dreturn
    (.replace 2 0, [88, 159, 160, 161, 162, 163, 164, 165, 166, 173, 175]),
    -- loads from arrays and arithmetic of one slot, shifts, l2i, l2f, d2i, d2f, fcmp
    (.replace 2 1, [46, 48, 50, 51, 52, 53, 96, 98, 100, 102, 104, 106, 108, 110, 112, 114, 120, 122,
      124, 126, 128, 130, 136, 137, 142, 144, 149, 150]),
    -- laload, daload, lneg, dneg, l2d, d2l
    (.replace 2 2, [47, 49, 117, 119, 138, 143]),
    -- stores to arrays of one slot
    (.replace 3 0, [79, 81, 83, 84, 85, 86]),
    -- lshl, lshr, lushr
    (.replace 3 2, [121, 123, 125]),
    -- lastore, dastore
    (.replace 4 0, [80, 82]),
    -- lcmp, dcmp
    (.replace 4 1, [148, 151, 152]),
    -- arithmetic of two slots
    (.replace 4 2, [97, 99, 101, 103, 105, 107, 109, 111, 113, 115, 127, 129, 131]),
    -- iload, fload; lload, dload; aload
    (.load none 1 false, [21, 23]), (.load none 2 false, [22, 24]), (.load none 1 true, [25]),
    (.load (some 0) 1 false, [26, 34]), (.load (some 1) 1 false, [27, 35]), (.load (some 2) 1 false, [28, 36]),
    (.load (some 3) 1 false, [29, 37]), (.load (some 0) 2 false, [30, 38]), (.load (some 1) 2 false, [31, 39]),
    (.load (some 2) 2 false, [32, 40]), (.load (some 3) 2 false, [33, 41]), (.load (some 0) 1 true, [42]),
    (.load (some 1) 1 true, [43]), (.load (some 2) 1 true, [44]), (.load (some 3) 1 true, [45]),
    -- istore, fstore; lstore, dstore; astore
    (.store none 1 false, [54, 56]), (.store none 2 false, [55, 57]), (.store none 1 true, [58]),
    (.store (some 0) 1 false, [59, 67]), (.store (some 1) 1 false, [60, 68]), (.store (some 2) 1 false, [61, 69]),
    (.store (some 3) 1 false, [62, 70]), (.store (some 0) 2 false, [63, 71]), (.store (some 1) 2 false, [64, 72]),
    (.store (some 2) 2 false, [65, 73]), (.store (some 3) 2 false, [66, 74]), (.store (some 0) 1 true, [75]),
    (.store (some 1) 1 true, [76]), (.store (some 2) 1 true, [77]), (.store (some 3) 1 true, [78]),
    -- dup, dup_x1, dup_x2, dup2, dup2_x1, dup2_x2, swap
    (.duplicate 1 0, [89]), (.duplicate 1 1, [90]), (.duplicate 1 2, [91]), (.duplicate 2 0, [92]),
    (.duplicate 2 1, [93]), (.duplicate 2 2, [94]), (.swap, [95]),
    -- getstatic, putstatic, getfield, putfield
    (.field 0 false, [178]), (.field 0 true, [179]), (.field 1 false, [180]), (.field 1 true, [181]),
    -- invokevirtual, invokespecial, invokeinterface; invokestatic, invokedynamic
    (.invoke 1, [182, 183, 185]), (.invoke 0, [184, 186]),
    -- checkcast, multianewarray
    (.keep, [192]), (.dimensions, [197])]

def jvmShape (opcode : Nat) : Option SlotShape := (jvmTable.find? (·.2.contains opcode)).map (·.1)

/-- The row of the table that a shape comes from. -/
theorem jvmShape_mem {opcode : Nat} {shape : SlotShape} (h : jvmShape opcode = some shape) :
    ∃ opcodes, (shape, opcodes) ∈ jvmTable ∧ opcode ∈ opcodes := by
  obtain ⟨⟨_, opcodes⟩, hfind, rfl⟩ := Option.map_eq_some_iff.mp h
  have hfits := List.find?_some hfind
  exact ⟨opcodes, List.mem_of_find?_eq_some hfind, by simpa using hfits⟩

/-- `iadd` to `i2s`: the operands are numbers. -/
def isArithmetic (opcode : Nat) : Bool := 96 ≤ opcode && opcode ≤ 147

/-- The descriptor of the member that an instruction names. -/
def memberText (pool : ConstantPool) (node : Instruction) : Option Bytes := do
  let natIndex ← memberNatIndex (← constantPoolAt pool node.operand.memberIndex)
  return (← nameAndTypeAt pool natIndex).2

/-- The type of a field. -/
def fieldTypeOf (pool : ConstantPool) (node : Instruction) : Option FieldType := do
  let (type, rest) ← readFieldType (← memberText pool node)
  if rest = [] then some type else none

/-- The descriptor of a method; the arguments take at most 255 slots. -/
def methodTypeOf (pool : ConstantPool) (node : Instruction) : Option MethodDescriptor := do
  let d ← readMethodDescriptor (← memberText pool node)
  if d.parameterSlots ≤ 255 then some d else none

/-- The slots of the arguments and of the result of the member that an instruction names. -/
def jvmMembers (pool : ConstantPool) (node : Instruction) : Option (Nat × Nat) :=
  if node.opcode ≤ 181 then (fieldTypeOf pool node).map fun type => (0, type.valueType.width)
  else (methodTypeOf pool node).map fun d => (d.parameterSlots, d.resultSlots)

/-- What an instruction does to the slots. -/
def jvmEffect (cf : ClassFile) (node : Instruction) : Option SlotEffect :=
  (jvmShape node.opcode.toNat).bind (·.effect node.operand (jvmMembers cf.constantPool node))

/-- A call of an `<init>`: the class it names, and the slots of its arguments. -/
def initCall (cf : ClassFile) (node : Instruction) : Option (UInt16 × Nat) :=
  if node.opcode = Opc.invokespecial then
    match constantPoolAt cf.constantPool node.operand.memberIndex with
    | some (.methodref classIndex natIndex) =>
      match nameAndTypeAt cf.constantPool natIndex with
      | some (name, _) =>
        if name = text "<init>" then
          (methodTypeOf cf.constantPool node).map fun d => (classIndex, d.parameterSlots)
        else none
      | none => none
    | _ => none
  else none

/-- The index names this class or its direct superclass. -/
def namesOwnClass (cf : ClassFile) (classIndex : UInt16) : Bool :=
  match classNameAt cf.constantPool classIndex with
  | some name =>
    classNameAt cf.constantPool cf.thisClass = some name || classNameAt cf.constantPool cf.superClass = some name
  | none => false

/-! ## States -/

/-- The slots that hold the original `this`, whether it is initialised, and what the slots hold of addresses to return
to: each the index of the instruction behind a `jsr`. -/
structure ThisState where
  frame : SlotFrame Bool
  initialised : Bool
  addresses : SlotFrame (Option Nat)
  deriving DecidableEq, Repr

/-- Outside of subroutines: no slot holds an address. -/
def ThisState.outside (frame : SlotFrame Bool) (initialised : Bool) : ThisState :=
  ⟨frame, initialised, frame.map fun _ => none⟩

/-- The receiver of a call is the original `this`. -/
def takesThis (f : SlotFrame Bool) (arguments : Nat) : Bool :=
  arguments < f.stack.length && f.stack.getD (f.stack.length - arguments - 1) false

/-- The address that the instruction of index `i` pushes. -/
def returnAddress (i : Nat) (node : Instruction) : Option Nat :=
  if callsSubroutine node.opcode then some (i + 1) else none

/-- The instruction of index `i`. The verifier stops arithmetic on `this`, an `<init>` of a `this` that is initialised,
and one of another class. -/
def ThisState.execute (cf : ClassFile) (limit i : Nat) (node : Instruction) (s : ThisState) : Option ThisState := do
  let e ← jvmEffect cf node
  let frame ← e.apply limit false s.frame
  let addresses ← e.apply limit (returnAddress i node) s.addresses
  if isArithmetic node.opcode.toNat && (s.frame.stack.drop (s.frame.stack.length - e.popped)).any id then none
  else match initCall cf node with
    | some (classIndex, arguments) =>
      if takesThis s.frame arguments then
        if s.initialised = false ∧ namesOwnClass cf classIndex then some ⟨frame, true, addresses⟩ else none
      else some ⟨frame, s.initialised, addresses⟩
    | none => some ⟨frame, s.initialised, addresses⟩

/-- The state that a handler is entered with: the exception is all there is on the stack. -/
def ThisState.thrown (s : ThisState) : ThisState :=
  ⟨⟨s.frame.locals, [false]⟩, s.initialised, ⟨s.addresses.locals, [none]⟩⟩

/-- Control may take an edge to `j`: of the edges of a `ret`, the one to the address in its local. -/
def ThisState.Goes (s : ThisState) (node : Instruction) (kind : EdgeKind) (j : Nat) : Prop :=
  kind = .ret → s.addresses.locals.getD node.operand.localIndex none = some j

instance (s : ThisState) (node : Instruction) (kind : EdgeKind) (j : Nat) : Decidable (s.Goes node kind j) := by
  unfold ThisState.Goes
  infer_instance

/-- The states that paths over the allowed edges bring to an instruction. A handler sees the locals from before the
instruction. -/
inductive Arrives (cf : ClassFile) (editor : CodeEditor) (allowed : ThisState → Instruction → EdgeKind → Prop) :
    Nat → ThisState → Prop
  | entry : Arrives cf editor allowed 0 (.outside (entryThis editor.maxLocals.toNat) false)
  | flow {i j : Nat} {kind : EdgeKind} {node : Instruction} {s s' : ThisState} (path : Arrives cf editor allowed i s)
      (at_ : editor.instructions.items[i]? = some node) (allows : allowed s node kind)
      (executed : s.execute cf editor.maxStack.toNat i node = some s') (normal : kind.isNormal = true)
      (edge : editor.Edge i kind j) (goes : s.Goes node kind j) : Arrives cf editor allowed j s'
  | thrown {i j : Nat} {kind : EdgeKind} {node : Instruction} {s : ThisState} (path : Arrives cf editor allowed i s)
      (at_ : editor.instructions.items[i]? = some node) (allows : allowed s node kind) (handled : kind.isNormal = false)
      (edge : editor.Edge i kind j) : Arrives cf editor allowed j s.thrown

/-- Every edge. -/
def anyEdge (_ : ThisState) (_ : Instruction) (_ : EdgeKind) : Prop := True

/-- What the verifier promises: there is room for `this`, the code is not too long, every instruction that a path
reaches can be executed there, and all paths to it agree on the depth of the stack and on what the receiver of an
`<init>` is. -/
structure Verified (cf : ClassFile) (editor : CodeEditor) : Prop where
  size : editor.instructions.codeLength ≤ jvmMaxCodeLength
  locals : 0 < editor.maxLocals.toNat
  executes : ∀ {i s}, Arrives cf editor anyEdge i s → ∃ node s', editor.instructions.items[i]? = some node ∧
    s.execute cf editor.maxStack.toNat i node = some s'
  depth : ∀ {i s t}, Arrives cf editor anyEdge i s → Arrives cf editor anyEdge i t →
    s.frame.stack.length = t.frame.stack.length
  receivers : ∀ {i s t node classIndex arguments}, Arrives cf editor anyEdge i s → Arrives cf editor anyEdge i t →
    editor.instructions.items[i]? = some node → initCall cf node = some (classIndex, arguments) →
    takesThis s.frame arguments = takesThis t.frame arguments

/-- The offsets directly behind the calls on `this` that paths over the allowed edges come to, of an `<init>` of the
classes that count. -/
def thisCalls (cf : ClassFile) (editor : CodeEditor) (allowed : ThisState → Instruction → EdgeKind → Prop)
    (counts : UInt16 → Prop) : Set Nat :=
  { a | ∃ i s node classIndex arguments, Arrives cf editor allowed i s ∧ editor.instructions.items[i]? = some node ∧
    initCall cf node = some (classIndex, arguments) ∧ takesThis s.frame arguments = true ∧ counts classIndex ∧
    a = editor.instructions.start (i + 1) }

/-- The calls of all paths, of an `<init>` of this class or its direct superclass by their names. -/
def initialisingCalls (cf : ClassFile) (editor : CodeEditor) : Set Nat :=
  thisCalls cf editor anyEdge fun classIndex => namesOwnClass cf classIndex = true

/-! ## Steps -/

/-- What an instruction that passes has done. -/
theorem execute_cases {cf : ClassFile} {limit i : Nat} {node : Instruction} {s s' : ThisState}
    (h : s.execute cf limit i node = some s') : ∃ e, jvmEffect cf node = some e ∧
    e.apply limit false s.frame = some s'.frame ∧ e.apply limit (returnAddress i node) s.addresses = some s'.addresses ∧
    (isArithmetic node.opcode.toNat = true → ∀ x ∈ s.frame.stack.drop (s.frame.stack.length - e.popped), x = false) ∧
    ((∃ classIndex arguments, initCall cf node = some (classIndex, arguments) ∧ takesThis s.frame arguments = true ∧
        s.initialised = false ∧ namesOwnClass cf classIndex = true ∧ s'.initialised = true) ∨
      ((∀ classIndex arguments, initCall cf node = some (classIndex, arguments) → takesThis s.frame arguments = false) ∧
        s'.initialised = s.initialised)) := by
  obtain ⟨e, he, h⟩ := Option.bind_eq_some_iff.mp h
  obtain ⟨frame, hframe, h⟩ := Option.bind_eq_some_iff.mp h
  obtain ⟨addresses, haddresses, h⟩ := Option.bind_eq_some_iff.mp h
  refine ⟨e, he, ?_⟩
  split at h
  · cases h
  rename_i harithmetic
  have hnumbers : isArithmetic node.opcode.toNat = true →
      ∀ x ∈ s.frame.stack.drop (s.frame.stack.length - e.popped), x = false := by
    intro hop x hx
    by_contra hne
    refine harithmetic ?_
    rw [hop, Bool.true_and, List.any_eq_true]
    exact ⟨x, hx, by simpa using hne⟩
  split at h
  · rename_i classIndex arguments hcall
    split at h
    · rename_i htakes
      split at h
      · rename_i hown
        cases h
        exact ⟨hframe, haddresses, hnumbers, .inl ⟨classIndex, arguments, hcall, htakes, hown.1, hown.2, rfl⟩⟩
      · cases h
    · rename_i htakes
      cases h
      refine ⟨hframe, haddresses, hnumbers, .inr ⟨fun c a hca => ?_, rfl⟩⟩
      rw [hcall] at hca
      cases hca
      simpa using htakes
  · rename_i hcall
    cases h
    refine ⟨hframe, haddresses, hnumbers, .inr ⟨fun c a hca => ?_, rfl⟩⟩
    rw [hcall] at hca
    cases hca

section Paths

variable {cf : ClassFile} {editor : CodeEditor}

theorem Arrives.any {allowed : ThisState → Instruction → EdgeKind → Prop} {i : Nat} {s : ThisState}
    (h : Arrives cf editor allowed i s) : Arrives cf editor anyEdge i s := by
  induction h with
  | entry => exact .entry
  | flow _ hat _ hexecuted hnormal hedge hgoes ih => exact .flow ih hat trivial hexecuted hnormal hedge hgoes
  | thrown _ hat _ hhandled hedge ih => exact .thrown ih hat trivial hhandled hedge

/-- No address decides about an edge to a handler. -/
theorem goes_of_handled {s : ThisState} {node : Instruction} {kind : EdgeKind} {j : Nat}
    (hhandled : kind.isNormal = false) : s.Goes node kind j := by
  rintro rfl
  cases hhandled

/-- The states that one step brings to instructions. -/
def nextStates (cf : ClassFile) (editor : CodeEditor) (i : Nat) (s : ThisState) : List (Nat × ThisState) :=
  match editor.instructions.items[i]? with
  | none => []
  | some node => ((editor.resolve.successors i).filter fun edge => s.Goes node edge.1 edge.2).filterMap fun edge =>
    if edge.1.isNormal then (s.execute cf editor.maxStack.toNat i node).map fun s' => (edge.2, s')
    else some (edge.2, s.thrown)

theorem Arrives.next {i j : Nat} {s s' : ThisState} (h : Arrives cf editor anyEdge i s)
    (hnext : (j, s') ∈ nextStates cf editor i s) : Arrives cf editor anyEdge j s' := by
  unfold nextStates at hnext
  split at hnext
  · cases hnext
  · rename_i node hat
    obtain ⟨⟨kind, target⟩, hedge, hstep⟩ := List.mem_filterMap.mp hnext
    obtain ⟨hedge, hgoes⟩ := List.mem_filter.mp hedge
    dsimp only at hstep
    split at hstep
    · rename_i hnormal
      obtain ⟨t, hexecuted, heq⟩ := Option.map_eq_some_iff.mp hstep
      cases heq
      exact h.flow hat trivial hexecuted hnormal hedge (of_decide_eq_true hgoes)
    · rename_i hhandled
      cases hstep
      exact h.thrown hat trivial (by simpa using hhandled) hedge

theorem mem_nextStates {i j : Nat} {kind : EdgeKind} {node : Instruction} {s s' : ThisState}
    (hat : editor.instructions.items[i]? = some node) (hedge : editor.Edge i kind j) (hgoes : s.Goes node kind j)
    (hstep : (if kind.isNormal then s.execute cf editor.maxStack.toNat i node else some s.thrown) = some s') :
    (j, s') ∈ nextStates cf editor i s := by
  unfold nextStates
  rw [hat]
  refine List.mem_filterMap.mpr ⟨(kind, j), List.mem_filter.mpr ⟨hedge, decide_eq_true hgoes⟩, ?_⟩
  dsimp only
  split at hstep
  · rename_i hnormal
    rw [if_pos hnormal, hstep]
    rfl
  · rename_i hhandled
    cases hstep
    rw [if_neg hhandled]

/-- States that a constructor can be checked with: the one at entry is among them, and whatever a step leads to. Two of
them at one instruction agree. -/
structure Verifies (cf : ClassFile) (editor : CodeEditor) (states : List (Nat × ThisState)) : Prop where
  size : editor.instructions.codeLength ≤ jvmMaxCodeLength
  locals : 0 < editor.maxLocals.toNat
  entry : (0, .outside (entryThis editor.maxLocals.toNat) false) ∈ states
  closed : ∀ p ∈ states, ∀ q ∈ nextStates cf editor p.1 p.2, q ∈ states
  executes : ∀ p ∈ states, (editor.instructions.items[p.1]?.bind fun node =>
    p.2.execute cf editor.maxStack.toNat p.1 node).isSome = true
  agree : ∀ p ∈ states, ∀ q ∈ states, p.1 = q.1 → p.2.frame.stack.length = q.2.frame.stack.length ∧
    ∀ node ∈ editor.instructions.items[p.1]?, ∀ call ∈ initCall cf node,
      takesThis p.2.frame call.2 = takesThis q.2.frame call.2

theorem Verifies.mem {states : List (Nat × ThisState)} (h : Verifies cf editor states) {i : Nat} {s : ThisState}
    (path : Arrives cf editor anyEdge i s) : (i, s) ∈ states := by
  induction path with
  | entry => exact h.entry
  | @flow i j kind node s s' _ hat _ hexecuted hnormal hedge hgoes ih =>
    exact h.closed _ ih _ (mem_nextStates hat hedge hgoes (by rw [if_pos hnormal]; exact hexecuted))
  | @thrown i j kind node s _ hat _ hhandled hedge ih =>
    exact h.closed _ ih _ (mem_nextStates hat hedge (goes_of_handled hhandled) (by rw [hhandled]; rfl))

/-- Closed states verify a constructor. -/
theorem Verifies.verified {states : List (Nat × ThisState)} (h : Verifies cf editor states) : Verified cf editor := by
  refine ⟨h.size, h.locals, fun {i s} path => ?_, fun {i s t} hs ht => ?_, fun {i s t node c a} hs ht hat hcall => ?_⟩
  · obtain ⟨s', hs'⟩ := Option.isSome_iff_exists.mp (h.executes _ (h.mem path))
    obtain ⟨node, hat, hexecute⟩ := Option.bind_eq_some_iff.mp hs'
    exact ⟨node, s', hat, hexecute⟩
  · exact (h.agree _ (h.mem hs) _ (h.mem ht) rfl).1
  · exact (h.agree _ (h.mem hs) _ (h.mem ht) rfl).2 node hat _ hcall

end Paths

end Jni2Hook
