import Jni2Hook.ByteStream

/-!
# Instructions

`visitors/instruction.c`: decoding a code array, laying out a list of instructions and encoding it again. Branch and
switch targets are absolute positions. Signed quantities are integers with the width of the C type made explicit where
a conversion can lose bits.
-/

namespace Jni2Hook

open Lib

/-! ## Fixed-width conversions -/

/-- `(int8_t)`. -/
def wrapI1 (x : Int) : Int := x.bmod (2 ^ 8)

/-- `(int16_t)`. -/
def wrapI2 (x : Int) : Int := x.bmod (2 ^ 16)

/-- `(i4)`, and the result of an `i4` addition. -/
def wrapI4 (x : Int) : Int := x.bmod (2 ^ 32)

/-- `(u1)` of a signed value. -/
def u1OfInt (x : Int) : UInt8 := UInt8.ofNat (x % 2 ^ 8).toNat

/-- `(u2)` of a signed value. -/
def u2OfInt (x : Int) : UInt16 := UInt16.ofNat (x % 2 ^ 16).toNat

/-- `(u4)` of a signed value. -/
def u4OfInt (x : Int) : UInt32 := UInt32.ofNat (x % 2 ^ 32).toNat

/-- Values of an unsigned 32-bit counter. -/
def u4 (n : Nat) : Nat := n % 2 ^ 32

/-! ## Opcodes -/

namespace Opc

abbrev nop : UInt8 := 0
abbrev aconst_null : UInt8 := 1
abbrev iconst_0 : UInt8 := 3
abbrev lconst_0 : UInt8 := 9
abbrev fconst_0 : UInt8 := 11
abbrev dconst_0 : UInt8 := 14
abbrev sipush : UInt8 := 17
abbrev ldc : UInt8 := 18
abbrev iload : UInt8 := 21
abbrev lload : UInt8 := 22
abbrev fload : UInt8 := 23
abbrev dload : UInt8 := 24
abbrev aload : UInt8 := 25
abbrev aload_0 : UInt8 := 42
abbrev ifeq : UInt8 := 153
abbrev goto : UInt8 := 167
abbrev jsr : UInt8 := 168
abbrev ret : UInt8 := 169
abbrev tableswitch : UInt8 := 170
abbrev lookupswitch : UInt8 := 171
abbrev ireturn : UInt8 := 172
abbrev lreturn : UInt8 := 173
abbrev freturn : UInt8 := 174
abbrev dreturn : UInt8 := 175
abbrev areturn : UInt8 := 176
abbrev return_ : UInt8 := 177
abbrev invokespecial : UInt8 := 183
abbrev invokestatic : UInt8 := 184
abbrev athrow : UInt8 := 191
abbrev checkcast : UInt8 := 192
abbrev wide : UInt8 := 196
abbrev goto_w : UInt8 := 200
abbrev jsr_w : UInt8 := 201
abbrev max : UInt8 := 201

end Opc

/-- `operand_kind`. -/
inductive OperandKind
  | none | immediate | local_ | iinc | constant | cpIndex | invokeInterface | invokeDynamic | multianewarray | branch
  | branchWide | tableSwitch | lookupSwitch
  deriving DecidableEq, Repr

def instructionKindOf (opcode : UInt8) : OperandKind :=
  if opcode ∈ [16, 17, 188] then .immediate
  else if opcode ∈ [21, 22, 23, 24, 25, 54, 55, 56, 57, 58, 169] then .local_
  else if opcode = 132 then .iinc
  else if opcode ∈ [18, 19, 20] then .constant
  else if opcode ∈ [178, 179, 180, 181, 182, 183, 184, 187, 189, 192, 193] then .cpIndex
  else if opcode = 185 then .invokeInterface
  else if opcode = 186 then .invokeDynamic
  else if opcode = 197 then .multianewarray
  else if opcode ∈ [153, 154, 155, 156, 157, 158, 159, 160, 161, 162, 163, 164, 165, 166, 167, 168, 198, 199] then
    .branch
  else if opcode ∈ [200, 201] then .branchWide
  else if opcode = 170 then .tableSwitch
  else if opcode = 171 then .lookupSwitch
  else .none

def instructionOpcodeIsDefined (opcode : UInt8) : Bool := opcode ≤ Opc.max

/-- `JVM_OPCODE_LENGTH_INITIALIZER`. -/
def opcodeLengths : List Nat :=
  [1, 1, 1, 1, 1, 1, 1, 1, 1, 1, 1, 1, 1, 1, 1, 1, 2, 3, 2, 3, 3, 2, 2, 2, 2, 2, 1, 1, 1, 1, 1, 1, 1, 1, 1, 1, 1, 1, 1,
    1, 1, 1, 1, 1, 1, 1, 1, 1, 1, 1, 1, 1, 1, 1, 2, 2, 2, 2, 2, 1, 1, 1, 1, 1, 1, 1, 1, 1, 1, 1, 1, 1, 1, 1, 1, 1, 1,
    1, 1, 1, 1, 1, 1, 1, 1, 1, 1, 1, 1, 1, 1, 1, 1, 1, 1, 1, 1, 1, 1, 1, 1, 1, 1, 1, 1, 1, 1, 1, 1, 1, 1, 1, 1, 1, 1,
    1, 1, 1, 1, 1, 1, 1, 1, 1, 1, 1, 1, 1, 1, 1, 1, 1, 3, 1, 1, 1, 1, 1, 1, 1, 1, 1, 1, 1, 1, 1, 1, 1, 1, 1, 1, 1, 1,
    3, 3, 3, 3, 3, 3, 3, 3, 3, 3, 3, 3, 3, 3, 3, 3, 2, 99, 99, 1, 1, 1, 1, 1, 1, 3, 3, 3, 3, 3, 3, 3, 5, 5, 3, 2, 3, 1,
    1, 3, 3, 1, 1, 0, 4, 3, 3, 5, 5]

/-! ## Nodes -/

/-- `switch_pair`. -/
structure SwitchPair where
  matchValue : Int
  target : Int
  deriving DecidableEq, Repr

/-- The operand of an instruction: its kind and the arm of the union that belongs to it. -/
inductive Operand
  | none
  | immediate (value : Int)
  | local_ (index : UInt16)
  | iinc (index : UInt16) (constant : Int)
  | constant (index : UInt16)
  | cpIndex (index : UInt16)
  | invokeInterface (index : UInt16) (count zero : UInt8)
  | invokeDynamic (index zero : UInt16)
  | multianewarray (index : UInt16) (dimensions : UInt8)
  | branch (target : Int)
  | branchWide (target : Int)
  | tableSwitch (defaultTarget low high : Int) (targets : List Int)
  | lookupSwitch (defaultTarget : Int) (pairs : List SwitchPair)
  deriving DecidableEq, Repr

def Operand.kind : Operand → OperandKind
  | none => .none
  | immediate _ => .immediate
  | local_ _ => .local_
  | iinc _ _ => .iinc
  | constant _ => .constant
  | cpIndex _ => .cpIndex
  | invokeInterface _ _ _ => .invokeInterface
  | invokeDynamic _ _ => .invokeDynamic
  | multianewarray _ _ => .multianewarray
  | branch _ => .branch
  | branchWide _ => .branchWide
  | tableSwitch _ _ _ _ => .tableSwitch
  | lookupSwitch _ _ => .lookupSwitch

/-- `instruction`. -/
structure Instruction where
  offset : Nat
  opcode : UInt8
  wide : Bool
  operand : Operand
  deriving DecidableEq, Repr

/-- `instruction_list`. -/
structure InstructionList where
  items : List Instruction
  codeLength : Nat
  deriving DecidableEq, Repr

/-- `instruction_switch_entries`. -/
def instructionSwitchEntries : Operand → Nat
  | .tableSwitch _ low high _ =>
    if high < low then 0
    else if high - low + 1 > jvmMaxCodeLength then jvmMaxCodeLength else (high - low + 1).toNat
  | .lookupSwitch _ pairs => pairs.length
  | _ => 0

/-- The bytes between a switch opcode at `offset` and the next multiple of four. -/
def switchPadding (offset : Nat) : Nat := (4 - (offset + 1) % 4) % 4

def instructionLengthAt (node : Instruction) (offset : Nat) : Nat :=
  match node.operand with
  | .local_ _ => if node.wide then 4 else 2
  | .iinc _ _ => if node.wide then 6 else 3
  | .tableSwitch .. => u4 (1 + switchPadding offset + 12 + instructionSwitchEntries node.operand * 4)
  | .lookupSwitch .. => u4 (1 + switchPadding offset + 8 + instructionSwitchEntries node.operand * 8)
  | _ => if instructionOpcodeIsDefined node.opcode then opcodeLengths.getD node.opcode.toNat 1 else 1

/-! ## Decoding -/

def readI4 : Parse Int := do return wrapI4 (← byteCursorU4).toNat

def readI2 : Parse Int := do return wrapI2 (← byteCursorU2).toNat

def readI1 : Parse Int := do return wrapI1 (← byteCursorU1).toNat

/-- A `u1` widened to the `u2` field it is stored in. -/
def readWidened : Parse UInt16 := do return (← byteCursorU1).toUInt16

/-- `(i4)offset + read_i4(&c)`. -/
def readTarget4 (offset : Nat) : Parse Int := do return wrapI4 (offset + (← readI4))

def readSwitchPair (offset : Nat) : Parse SwitchPair := do
  let matchValue ← readI4
  return ⟨matchValue, ← readTarget4 offset⟩

/-- `while (byte_cursor_offset(&c) % 4u != 0u && byte_cursor_ok(&c))`: each round moves or latches, so three are
enough. -/
def skipPadding : Nat → Parse Unit
  | 0 => return ()
  | fuel + 1 => do
    if (← byteCursorOffset) % 4 ≠ 0 ∧ (← byteCursorOk) = true then
      let _ ← byteCursorU1
      skipPadding fuel
    else return ()

def readTableSwitch (offset : Nat) : Parse Operand := do
  skipPadding 3
  let defaultTarget ← readTarget4 offset
  let low ← readI4
  let high ← readI4
  checkOk .truncated
  if high < low then throw .truncated
  else if (high - low + 1) * 4 > (← byteCursorRemaining) then throw .truncated
  else return .tableSwitch defaultTarget low high (← readMany (readTarget4 offset) (high - low + 1).toNat)

def readLookupSwitch (offset : Nat) : Parse Operand := do
  skipPadding 3
  let defaultTarget ← readTarget4 offset
  let count ← readI4
  checkOk .truncated
  if count < 0 then throw .truncated
  else if count.toNat * 8 > (← byteCursorRemaining) then throw .truncated
  else return .lookupSwitch defaultTarget (← readMany (readSwitchPair offset) count.toNat)

/-- The `switch (node->kind)` of `instruction_list_parse`. -/
def readOperand (offset : Nat) (opcode : UInt8) (wide : Bool) : Parse Operand :=
  match instructionKindOf opcode with
  | .none => return .none
  | .immediate => return .immediate (← if opcode = Opc.sipush then readI2 else readI1)
  | .local_ => return .local_ (← if wide then byteCursorU2 else readWidened)
  | .iinc =>
    if wide then do return .iinc (← byteCursorU2) (← readI2)
    else do return .iinc (← readWidened) (← readI1)
  | .constant => return .constant (← if opcode = Opc.ldc then readWidened else byteCursorU2)
  | .cpIndex => return .cpIndex (← byteCursorU2)
  | .invokeInterface => return .invokeInterface (← byteCursorU2) (← byteCursorU1) (← byteCursorU1)
  | .invokeDynamic => return .invokeDynamic (← byteCursorU2) (← byteCursorU2)
  | .multianewarray => return .multianewarray (← byteCursorU2) (← byteCursorU1)
  | .branch => return .branch (wrapI4 (offset + (← readI2)))
  | .branchWide => return .branchWide (← readTarget4 offset)
  | .tableSwitch => readTableSwitch offset
  | .lookupSwitch => readLookupSwitch offset

/-- Only a local variable access can be widened. -/
def kindIsWidenable : OperandKind → Bool
  | .local_ | .iinc => true
  | _ => false

/-- The opcode, behind a `wide` prefix or not. -/
def readOpcode : Parse (UInt8 × Bool) := do
  let first ← byteCursorU1
  if first = Opc.wide then return (← byteCursorU1, true) else return (first, false)

/-- One round of the loop of `instruction_list_parse`. -/
def readInstruction : Parse Instruction := do
  let offset ← byteCursorOffset
  let (opcode, wide) ← readOpcode
  if instructionOpcodeIsDefined opcode = false ∨ opcode = Opc.wide then do
    checkOk .truncated
    throw .opcode
  else if wide = true ∧ kindIsWidenable (instructionKindOf opcode) = false then throw .opcode
  else do
    let operand ← readOperand offset opcode wide
    checkOk .truncated
    return ⟨offset, opcode, wide, operand⟩

/-- The loop of `instruction_list_parse`; every round takes at least one byte, so the code length bounds them. -/
def readInstructions : Nat → Parse (List Instruction)
  | 0 => return []
  | fuel + 1 => do
    if (← byteCursorExhausted) = true then return []
    else do
      let node ← readInstruction
      let rest ← readInstructions fuel
      return node :: rest

def instructionListParse (code : Bytes) : Except ClassfileStatus InstructionList :=
  match (readInstructions code.length).run (byteCursorInit code) with
  | .error e => .error e
  | .ok (items, c) => if c.ok then .ok ⟨items, code.length⟩ else .error .truncated

/-! ## Layout -/

/-- One pass of `instruction_list_recompute_offsets` from `offset` on: the nodes with their offsets, and the end. -/
def layoutFrom : Nat → List Instruction → List Instruction × Nat
  | offset, [] => ([], offset)
  | offset, node :: rest =>
    let (placed, stop) := layoutFrom (u4 (offset + instructionLengthAt node offset)) rest
    ({ node with offset := offset } :: placed, stop)

/-- The passes of `instruction_list_recompute_offsets`, until one changes nothing. -/
def recomputeLoop : Nat → InstructionList → InstructionList
  | 0, list => list
  | fuel + 1, list =>
    let (placed, stop) := layoutFrom 0 list.items
    if placed = list.items then ⟨placed, stop⟩ else recomputeLoop fuel ⟨placed, stop⟩

/-- A pass over a list that is laid out changes nothing, so the second pass is the last one. -/
def instructionListRecomputeOffsets (list : InstructionList) : InstructionList := recomputeLoop 2 list

/-! ## Encoding -/

/-- The operand of the node at `offset`; `size` is the size of the buffer behind its opcode. -/
def encodeOperand (offset size : Nat) (node : Instruction) : Except ClassfileStatus Bytes :=
  match node.operand with
  | .none => .ok []
  | .immediate value =>
    .ok (if node.opcode = Opc.sipush then byteBufferU2 (u2OfInt value) else byteBufferU1 (u1OfInt value))
  | .local_ index => .ok (if node.wide then byteBufferU2 index else byteBufferU1 index.toUInt8)
  | .iinc index constant =>
    .ok (if node.wide then byteBufferU2 index ++ byteBufferU2 (u2OfInt constant)
      else byteBufferU1 index.toUInt8 ++ byteBufferU1 (u1OfInt constant))
  | .constant index => .ok (if node.opcode = Opc.ldc then byteBufferU1 index.toUInt8 else byteBufferU2 index)
  | .cpIndex index => .ok (byteBufferU2 index)
  | .invokeInterface index count zero => .ok (byteBufferU2 index ++ (byteBufferU1 count ++ byteBufferU1 zero))
  | .invokeDynamic index zero => .ok (byteBufferU2 index ++ byteBufferU2 zero)
  | .multianewarray index dimensions => .ok (byteBufferU2 index ++ byteBufferU1 dimensions)
  | .branch target =>
    let delta := target - offset
    if delta < -2 ^ 15 ∨ delta > 2 ^ 15 - 1 then .error .branchRange else .ok (byteBufferU2 (u2OfInt delta))
  | .branchWide target =>
    let delta := target - offset
    if delta < -2 ^ 31 ∨ delta > 2 ^ 31 - 1 then .error .branchRange else .ok (byteBufferU4 (u4OfInt delta))
  | .tableSwitch defaultTarget low high targets =>
    .ok (List.replicate ((4 - size % 4) % 4) 0 ++ (byteBufferU4 (u4OfInt (defaultTarget - offset)) ++
      (byteBufferU4 (u4OfInt low) ++ (byteBufferU4 (u4OfInt high) ++
        (targets.take (instructionSwitchEntries node.operand)).flatMap fun t => byteBufferU4 (u4OfInt (t - offset))))))
  | .lookupSwitch defaultTarget pairs =>
    .ok (List.replicate ((4 - size % 4) % 4) 0 ++ (byteBufferU4 (u4OfInt (defaultTarget - offset)) ++
      (byteBufferU4 (u4OfInt pairs.length) ++
        pairs.flatMap fun p => byteBufferU4 (u4OfInt p.matchValue) ++ byteBufferU4 (u4OfInt (p.target - offset)))))

/-- The `wide` prefix and the opcode. -/
def encodeOpcode (node : Instruction) : Bytes :=
  if node.wide then [Opc.wide, node.opcode] else [node.opcode]

/-- The loop of `instruction_list_encode`, with `size` bytes in the buffer. -/
def encodeFrom : Nat → List Instruction → Except ClassfileStatus Bytes
  | _, [] => .ok []
  | size, node :: rest => do
    let opcode := encodeOpcode node
    let operand ← encodeOperand (u4 size) (size + opcode.length) node
    let tail ← encodeFrom (size + opcode.length + operand.length) rest
    return opcode ++ (operand ++ tail)

def instructionListEncode (list : InstructionList) : Except ClassfileStatus Bytes := do
  let bytes ← encodeFrom 0 list.items
  if bytes.length > jvmMaxCodeLength then throw .codeTooLarge
  else return bytes

end Jni2Hook
