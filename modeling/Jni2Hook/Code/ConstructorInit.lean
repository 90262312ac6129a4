import Jni2Hook.Code.CodeEditor

/-!
# The initialising call of a constructor

`visitors/constructor_init.c`: a worklist analysis that follows the uninitialised `this` through locals and operand
stack, and reports the end of the `invokespecial` that consumes it. A slot is a set of two flags: it may hold `this`, it
may hold something else.
-/

namespace Jni2Hook

/-- `TRACE_THIS`. -/
def traceThis : UInt8 := 1

/-- `TRACE_OTHER`. -/
def traceOther : UInt8 := 2

/-- `trace_work`: the stack from its bottom to its top, `depth` slots long. -/
structure TraceWork where
  locals : List UInt8
  stack : List UInt8
  maxStack : Nat
  deriving DecidableEq, Repr

def popSlots (work : TraceWork) (count : Nat) : Option TraceWork :=
  if count > work.stack.length then none
  else some { work with stack := work.stack.take (work.stack.length - count) }

def pushSlot (work : TraceWork) (value : UInt8) : Option TraceWork :=
  if work.stack.length ≥ work.maxStack then none else some { work with stack := work.stack ++ [value] }

def pushOther (work : TraceWork) : Nat → Option TraceWork
  | 0 => some work
  | count + 1 => do pushOther (← pushSlot work traceOther) count

def replaceSlots (work : TraceWork) (popped pushed : Nat) : Option TraceWork := do
  pushOther (← popSlots work popped) pushed

/-! ## Descriptors -/

/-- The argument loop of `descriptor_slots`, behind the opening parenthesis: the slots and what follows the closing one.
Every round takes at least one character. -/
def argumentSlots : Nat → Bytes → UInt16 → Option (UInt16 × Bytes)
  | 0, _, _ => none
  | fuel + 1, bytes, args =>
    match bytes with
    | [] => none
    | 0x29 :: rest => some (args, rest)
    | bytes =>
      match bytes.dropWhile (· == 0x5B) with
      | [] => none
      | 0x4C :: rest =>
        match rest.dropWhile (· != 0x3B) with
        | [] => none
        | _ :: after => argumentSlots fuel after (args + 1)
      | c :: rest => argumentSlots fuel rest (args + if c = 0x4A ∨ c = 0x44 then 2 else 1)

/-- The slots of the type that ends a descriptor. -/
def resultSlots (bytes : Bytes) : Option UInt16 :=
  match bytes.dropWhile (· == 0x5B) with
  | [] => none
  | c :: _ => some (if c = 0x56 then 0 else if c = 0x4A ∨ c = 0x44 then 2 else 1)

/-- `descriptor_slots`: the slots of the arguments and of the result. -/
def descriptorSlots (pool : ConstantPool) (index : UInt16) : Option (UInt16 × UInt16) :=
  match constantPoolUtf8 pool index with
  | none | some [] => none
  | some (0x28 :: rest) => do
    let (args, result) ← argumentSlots (rest.length + 1) rest 0
    return (args, ← resultSlots result)
  | some bytes => do return (0, ← resultSlots bytes)

/-- The NameAndType of a member reference or a dynamic constant. -/
def memberNatIndex : CpInfo → Option UInt16
  | .fieldref _ n | .methodref _ n | .interfaceMethodref _ n => some n
  | .invokeDynamic _ n | .dynamic _ n => some n
  | _ => none

def memberDescriptor (pool : ConstantPool) (cpIndex : UInt16) : Option (UInt16 × UInt16) := do
  let natIndex ← memberNatIndex (← constantPoolAt pool cpIndex)
  match ← constantPoolAt pool natIndex with
  | .nameAndType _ descriptorIndex => descriptorSlots pool descriptorIndex
  | _ => none

/-- `is_initializing_call`: the argument slots of a call of `<init>` on this class or its superclass. -/
def isInitializingCall (cf : ClassFile) (node : Instruction) : Option UInt16 :=
  match node.operand with
  | .cpIndex index =>
    if node.opcode ≠ Opc.invokespecial then none
    else match constantPoolAt cf.constantPool index with
      | some (.methodref classIndex natIndex) =>
        if classIndex ≠ cf.thisClass ∧ classIndex ≠ cf.superClass then none
        else match constantPoolAt cf.constantPool natIndex with
          | some (.nameAndType nameIndex descriptorIndex) =>
            if constantPoolUtf8Equals cf.constantPool nameIndex (text "<init>") then
              (descriptorSlots cf.constantPool descriptorIndex).map (·.1)
            else none
          | _ => none
      | _ => none
  | _ => none

/-! ## Executing one instruction -/

def loadLocal (work : TraceWork) (index width : Nat) (reference : Bool) : Option TraceWork :=
  if index ≥ work.locals.length ∨ width > work.locals.length - index then none
  else if reference then pushSlot work (work.locals.getD index 0)
  else pushOther work width

def storeLocal (work : TraceWork) (index width : Nat) (reference : Bool) : Option TraceWork :=
  if index ≥ work.locals.length ∨ width > work.locals.length - index ∨ width > work.stack.length then none
  else do
    let value := if reference then work.stack.getD (work.stack.length - 1) 0 else traceOther
    let popped ← popSlots work width
    return { popped with
      locals := popped.locals.take index ++ (List.replicate width value ++ popped.locals.drop (index + width)) }

/-- `duplicate_slots`: the top `copied` slots go in again below the `below` slots under them. -/
def duplicateSlots (work : TraceWork) (copied below : Nat) : Option TraceWork :=
  if copied + below > work.stack.length ∨ work.stack.length + copied > work.maxStack then none
  else
    let top := work.stack.drop (work.stack.length - copied)
    let insertion := work.stack.length - copied - below
    some { work with stack := work.stack.take insertion ++ (top ++ work.stack.drop insertion) }

def swapSlots (work : TraceWork) : Option TraceWork :=
  if work.stack.length < 2 then none
  else
    let under := work.stack.take (work.stack.length - 2)
    some { work with stack := under ++ (work.stack.drop (work.stack.length - 2)).reverse }

/-- The local variable index in a `local` operand; the union reads as zero for every other operand. -/
def Operand.localIndex : Operand → Nat
  | .local_ index => index.toNat
  | _ => 0

/-- The constant pool index of a member access, in whichever arm of the union it sits. -/
def Operand.memberIndex : Operand → UInt16
  | .cpIndex index | .invokeInterface index _ _ | .invokeDynamic index _ => index
  | _ => 0

def Operand.dimensions : Operand → Nat
  | .multianewarray _ dimensions => dimensions.toNat
  | _ => 0

/-- Width and index of the short forms `iload_0` to `aload_3` and `istore_0` to `astore_3`, by their distance from the
first of them; the last four move a reference. -/
def shortLocal (distance : Nat) : Nat × Nat × Bool :=
  (distance % 4, if distance / 4 = 1 ∨ distance / 4 = 3 then 2 else 1, distance / 4 = 4)

/-- `getstatic` to `putfield`. -/
def executeField (cf : ClassFile) (opcode : Nat) (node : Instruction) (work : TraceWork) : Option TraceWork := do
  let (_, width) ← memberDescriptor cf.constantPool node.operand.memberIndex
  if opcode = 178 then pushOther work width.toNat
  else if opcode = 179 then popSlots work width.toNat
  else if opcode = 180 then replaceSlots work 1 width.toNat
  else popSlots work (width + 1).toNat

/-- `invokevirtual` to `invokedynamic`. -/
def executeInvoke (cf : ClassFile) (opcode : Nat) (node : Instruction) (work : TraceWork) : Option TraceWork := do
  let (arguments, result) ← memberDescriptor cf.constantPool node.operand.memberIndex
  let receiver : UInt16 := if opcode = 184 ∨ opcode = 186 then 0 else 1
  replaceSlots work (arguments + receiver).toNat result.toNat

/-- `execute` without its `terminal` answer. The tests come in the order of the source. -/
def executeSlots (cf : ClassFile) (node : Instruction) (work : TraceWork) : Option TraceWork :=
  let opcode := node.opcode.toNat
  if opcode = 0 ∨ opcode = 132 then some work
  else if (1 ≤ opcode ∧ opcode ≤ 8) ∨ (11 ≤ opcode ∧ opcode ≤ 13) ∨ (16 ≤ opcode ∧ opcode ≤ 19) then pushOther work 1
  else if opcode ∈ [9, 10, 14, 15, 20] then pushOther work 2
  else if 21 ≤ opcode ∧ opcode ≤ 25 then
    loadLocal work node.operand.localIndex (if opcode = 22 ∨ opcode = 24 then 2 else 1) (opcode = 25)
  else if 26 ≤ opcode ∧ opcode ≤ 45 then
    let (index, width, reference) := shortLocal (opcode - 26)
    loadLocal work index width reference
  else if 54 ≤ opcode ∧ opcode ≤ 58 then
    storeLocal work node.operand.localIndex (if opcode = 55 ∨ opcode = 57 then 2 else 1) (opcode = 58)
  else if 59 ≤ opcode ∧ opcode ≤ 78 then
    let (index, width, reference) := shortLocal (opcode - 59)
    storeLocal work index width reference
  else if opcode = 47 ∨ opcode = 49 then replaceSlots work 2 2
  else if 46 ≤ opcode ∧ opcode ≤ 53 then replaceSlots work 2 1
  else if opcode = 80 ∨ opcode = 82 then popSlots work 4
  else if 79 ≤ opcode ∧ opcode ≤ 86 then popSlots work 3
  else if opcode = 87 then popSlots work 1
  else if opcode = 88 then popSlots work 2
  else if opcode = 89 then duplicateSlots work 1 0
  else if opcode = 90 then duplicateSlots work 1 1
  else if opcode = 91 then duplicateSlots work 1 2
  else if opcode = 92 then duplicateSlots work 2 0
  else if opcode = 93 then duplicateSlots work 2 1
  else if opcode = 94 then duplicateSlots work 2 2
  else if opcode = 95 then swapSlots work
  else if 96 ≤ opcode ∧ opcode ≤ 115 then
    if (opcode - 96) % 4 = 1 ∨ (opcode - 96) % 4 = 3 then replaceSlots work 4 2 else replaceSlots work 2 1
  else if 116 ≤ opcode ∧ opcode ≤ 119 then some work
  else if opcode ∈ [120, 122, 124] then replaceSlots work 2 1
  else if opcode ∈ [121, 123, 125] then replaceSlots work 3 2
  else if 126 ≤ opcode ∧ opcode ≤ 131 then
    if opcode % 2 = 1 then replaceSlots work 4 2 else replaceSlots work 2 1
  else if opcode ∈ [133, 135, 140, 141] then replaceSlots work 1 2
  else if opcode ∈ [136, 137, 142, 144] then replaceSlots work 2 1
  else if opcode ∈ [138, 143] then replaceSlots work 2 2
  else if (134 ≤ opcode ∧ opcode ≤ 147) ∨ opcode = 139 then some work
  else if opcode ∈ [148, 151, 152] then replaceSlots work 4 1
  else if opcode ∈ [149, 150] then replaceSlots work 2 1
  else if 153 ≤ opcode ∧ opcode ≤ 158 then popSlots work 1
  else if 159 ≤ opcode ∧ opcode ≤ 166 then popSlots work 2
  else if opcode ∈ [170, 171, 198, 199] then popSlots work 1
  else if opcode = 167 ∨ opcode = 200 then some work
  else if opcode ∈ [168, 201, 169] then none
  else if 172 ≤ opcode ∧ opcode ≤ 177 then
    popSlots work (if opcode = 173 ∨ opcode = 175 then 2 else if opcode = 177 then 0 else 1)
  else if 178 ≤ opcode ∧ opcode ≤ 181 then executeField cf opcode node work
  else if 182 ≤ opcode ∧ opcode ≤ 186 then executeInvoke cf opcode node work
  else if opcode = 187 then pushOther work 1
  else if opcode = 188 ∨ opcode = 189 then replaceSlots work 1 1
  else if opcode = 197 then replaceSlots work node.operand.dimensions 1
  else if opcode = 190 ∨ opcode = 193 then replaceSlots work 1 1
  else if opcode = 191 then popSlots work 1
  else if opcode = 192 then (if work.stack.length ≠ 0 then some work else none)
  else if opcode = 194 ∨ opcode = 195 then popSlots work 1
  else none

/-- The `terminal` answer of `execute`: the returns and `athrow`. -/
def isTerminal (node : Instruction) : Bool :=
  (172 ≤ node.opcode.toNat && node.opcode.toNat ≤ 177) || node.opcode == Opc.athrow

/-! ## The worklist -/

/-- The part of a `trace_state` that is there once it is reached. -/
structure TraceSlots where
  locals : List UInt8
  stack : List UInt8
  deriving DecidableEq, Repr

/-- `trace_state`. -/
structure TraceState where
  slots : Option TraceSlots := none
  queued : Bool := false
  deriving DecidableEq, Repr

/-- The slot-wise `|` of `merge_state`. -/
def mergeSlots (old new : List UInt8) : List UInt8 := List.zipWith (· ||| ·) old new

/-- `merge_state`: the state and whether it changed. -/
def mergeState (state : TraceState) (work : TraceWork) : TraceState × Bool :=
  match state.slots with
  | none => ({ state with slots := some ⟨work.locals, work.stack⟩ }, true)
  | some old =>
    if old.stack.length ≠ work.stack.length then (state, false)
    else
      let merged : TraceSlots := ⟨mergeSlots old.locals work.locals, mergeSlots old.stack work.stack⟩
      ({ state with slots := some merged }, decide (merged ≠ old))

/-- The states, the circular queue and what was found. -/
structure TraceLoop where
  states : List TraceState
  queue : List Nat
  head : Nat
  tail : Nat
  pending : Nat
  found : Option Nat
  ambiguous : Bool
  deriving DecidableEq, Repr

def propagate (work : TraceWork) (loop : TraceLoop) (target : Nat) : TraceLoop :=
  let (next, changed) := mergeState (loop.states.getD target {}) work
  if changed = true ∧ next.queued = false then
    { loop with
      states := loop.states.set target { next with queued := true }
      queue := loop.queue.set loop.tail target
      tail := (loop.tail + 1) % loop.queue.length
      pending := loop.pending + 1 }
  else { loop with states := loop.states.set target next }

/-- `instruction_index_at`. -/
def instructionIndexAt (items : List Instruction) (offset : Int) : Option Nat :=
  if offset < 0 then none else items.findIdx? fun node => node.offset = offset

/-- The opcodes that do not fall through although they are branches. -/
def isUnconditional (opcode : UInt8) : Bool :=
  opcode == Opc.goto || opcode == Opc.goto_w || opcode == Opc.jsr || opcode == Opc.jsr_w

/-- The index behind an instruction, if there is one. -/
def nextIndex (items : List Instruction) (index : Nat) : List Nat :=
  if index + 1 < items.length then [index + 1] else []

/-- The instructions that the loop propagates to, in its order. -/
def traceSuccessors (items : List Instruction) (index : Nat) (node : Instruction) : List Nat :=
  let at_ (offset : Int) := (instructionIndexAt items offset).toList
  match node.operand with
  | .branch target | .branchWide target =>
    at_ target ++ if isUnconditional node.opcode then [] else nextIndex items index
  | .tableSwitch defaultTarget _ _ targets => at_ defaultTarget ++ targets.flatMap at_
  | .lookupSwitch defaultTarget pairs => at_ defaultTarget ++ pairs.flatMap fun p => at_ p.target
  | _ => if isTerminal node then [] else nextIndex items index

/-- The slot that an initialising call consumes holds `this` and nothing else. -/
def consumesThis (arguments : Nat) (stack : List UInt8) : Bool :=
  arguments < stack.length && stack.getD (stack.length - arguments - 1) 0 == traceThis

/-- The end of an initialising call on `this`, if the instruction is one in that state. -/
def initializes (cf : ClassFile) (node : Instruction) (stack : List UInt8) : Option Nat :=
  match isInitializingCall cf node with
  | some arguments =>
    if consumesThis arguments.toNat stack then some (u4 (node.offset + instructionLengthAt node node.offset)) else none
  | none => none

/-- Records a found call; a second, different one is ambiguous. -/
def recordFound (loop : TraceLoop) (after : Nat) : TraceLoop :=
  match loop.found with
  | none => { loop with found := some after }
  | some offset => if after ≠ offset then { loop with ambiguous := true } else loop

/-- One round of the loop, once the index is taken off the queue. -/
def traceVisit (cf : ClassFile) (editor : CodeEditor) (loop : TraceLoop) (index : Nat) : TraceLoop :=
  match editor.instructions.items[index]?, (loop.states.getD index {}).slots with
  | some node, some slots =>
    match initializes cf node slots.stack with
    | some after => recordFound loop after
    | none =>
      match executeSlots cf node ⟨slots.locals, slots.stack, editor.maxStack.toNat⟩ with
      | none => loop
      | some work => (traceSuccessors editor.instructions.items index node).foldl (propagate work) loop
  | _, _ => loop

/-- Takes the next index off the queue. -/
def dequeue (loop : TraceLoop) : Nat × TraceLoop :=
  let index := loop.queue.getD loop.head 0
  (index, { loop with
    head := (loop.head + 1) % loop.queue.length
    pending := loop.pending - 1
    states := loop.states.modify index fun state => { state with queued := false } })

/-- The loop. A state is queued again only after one of its slots grew, and a slot can grow once, so the fuel of
`constructorInitOffset` is enough. -/
def traceLoop (cf : ClassFile) (editor : CodeEditor) : Nat → TraceLoop → TraceLoop
  | 0, loop => loop
  | fuel + 1, loop =>
    if loop.pending = 0 then loop
    else
      let (index, rest) := dequeue loop
      traceLoop cf editor fuel (traceVisit cf editor rest index)

/-- `constructor_init_result`, with the offset of a call that was found. -/
inductive ConstructorInitResult
  | found (offset : Nat)
  | missing
  | ambiguous
  deriving DecidableEq, Repr

/-- The state at entry: `this` in the first local. -/
def entryLocals (maxLocals : Nat) : List UInt8 := traceThis :: List.replicate (maxLocals - 1) traceOther

/-- The loop before its first round: the first instruction is queued. -/
def initialLoop (editor : CodeEditor) : TraceLoop :=
  let count := editor.instructions.items.length
  { states := ⟨some ⟨entryLocals editor.maxLocals.toNat, []⟩, true⟩ :: List.replicate (count - 1) {}
    queue := List.replicate count 0
    head := 0
    tail := 1 % count
    pending := 1
    found := none
    ambiguous := false }

def constructorInitOffset (cf : ClassFile) (editor : CodeEditor) : ConstructorInitResult :=
  let count := editor.instructions.items.length
  if count = 0 ∨ editor.maxLocals = 0 then .missing
  else
    let fuel := count * (editor.maxLocals.toNat + editor.maxStack.toNat + 1) + 1
    let done := traceLoop cf editor fuel (initialLoop editor)
    if done.ambiguous then .ambiguous
    else match done.found with
      | none => .missing
      | some offset => .found offset

end Jni2Hook
