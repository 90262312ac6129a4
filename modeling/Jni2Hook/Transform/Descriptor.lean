import Jni2Hook.Code.CodeEditor
import Jni2Hook.Transform.Intern

/-!
# Descriptors of forwarded calls

The descriptor walks of `class_transform.c`: how each parameter is loaded and forwarded, the descriptor of the callee,
the frame a method starts in, and the opcodes that return a value. A descriptor is a C string, so its end is the end of
the list.
-/

namespace Jni2Hook

/-! ## Parameters -/

/-- `forwarded_parameter`. -/
structure ForwardedParameter where
  loadOpcode : UInt8
  slot : UInt16
  forwarded : UInt8
  deriving DecidableEq, Repr

/-- The load opcode and the width of a parameter by the letter behind its array brackets. -/
def loadOf : UInt8 → Option (UInt8 × UInt16)
  | 0x42 | 0x43 | 0x53 | 0x5A | 0x49 => some (Opc.iload, 1)
  | 0x4A => some (Opc.lload, 2)
  | 0x46 => some (Opc.fload, 1)
  | 0x44 => some (Opc.dload, 2)
  | 0x4C => some (Opc.aload, 1)
  | _ => none

/-- What follows the letter of a type: a class type ends behind its semicolon. -/
def afterType (letter : UInt8) (rest : Bytes) : Option Bytes :=
  if letter = 0x4C then
    match rest.dropWhile (· != 0x3B) with
    | [] => none
    | _ :: after => some after
  else some rest

/-- `sizeof(parameters) / sizeof(parameters[0])`. -/
def parameterCapacity : Nat := 64

/-- The loop of `describe_parameters`, behind the parameters found so far. Every round takes at least one character. -/
def describeLoop : Nat → Bytes → List ForwardedParameter → UInt16 → Option (List ForwardedParameter)
  | 0, _, _, _ => none
  | fuel + 1, descriptor, found, slot =>
    match descriptor with
    | [] => none
    | 0x29 :: _ => some found
    | first :: _ =>
      if found.length = parameterCapacity then none
      else match descriptor.dropWhile (· == 0x5B) with
        | [] => none
        | letter :: rest => do
          let (opcode, width) ← loadOf letter
          let after ← afterType letter rest
          let forwarded := if first = 0x5B then 0x4C else letter
          describeLoop fuel after (found ++ [⟨opcode, slot, forwarded⟩]) (slot + width)

def describeParameters (descriptor : Bytes) (isStatic : Bool) : Option (List ForwardedParameter) :=
  match descriptor with
  | 0x28 :: rest =>
    if isStatic then describeLoop (rest.length + 1) rest [] 0
    else describeLoop (rest.length + 1) rest [⟨Opc.aload, 0, 0x4C⟩] 1
  | _ => none

/-- `sizeof(callee_descriptor)`. -/
def calleeDescriptorCapacity : Nat := 1024

/-- The loop of `build_callee_descriptor` behind what is written already. -/
def calleeLoop : List ForwardedParameter → Bytes → Option Bytes
  | [], used => some used
  | p :: rest, used =>
    let written := if p.forwarded = 0x4C then text "Ljava/lang/Object;" else [p.forwarded]
    if used.length + written.length ≥ calleeDescriptorCapacity then none else calleeLoop rest (used ++ written)

/-- `build_callee_descriptor`, up to the return type. -/
def buildCalleeDescriptor (parameters : List ForwardedParameter) (result : UInt8) : Option Bytes := do
  let used ← calleeLoop parameters (text "(I")
  if used.length + 3 > calleeDescriptorCapacity then none else return used ++ [0x29, result]

/-- The stack slots that a load pushes. -/
def pushedBy (p : ForwardedParameter) : UInt16 :=
  if p.loadOpcode = Opc.lload ∨ p.loadOpcode = Opc.dload then 2 else 1

/-! ## The entry frame -/

/-- The verification type of a primitive parameter. -/
def primitiveType : UInt8 → Option VerificationType
  | 0x4A => some .long
  | 0x46 => some .float
  | 0x44 => some .double
  | 0x42 | 0x43 | 0x53 | 0x5A | 0x49 => some .integer
  | _ => none

/-- The verification type of a parameter: an array names its descriptor, a class the name inside its wrapper. -/
def parameterType (brackets element : Bytes) (isClass : Bool) : Edit VerificationType := do
  if brackets.isEmpty = false ∨ isClass = true then
    let name := if brackets.isEmpty then (element.drop 1).dropLast else brackets ++ element
    if name.length ≥ 512 then throw .unsupported
    else return .object (← classFileInternClass name)
  else match element.head?.bind primitiveType with
    | some type => return type
    | none => throw .unsupported

/-- The loop of `build_entry_frame` behind the locals found so far. -/
def entryFrameLoop : Nat → Bytes → List VerificationType → Edit (List VerificationType)
  | 0, _, _ => throw .unsupported
  | fuel + 1, descriptor, found =>
    match descriptor with
    | [] => throw .unsupported
    | 0x29 :: _ => return found
    | _ =>
      if found.length = 256 then throw .unsupported
      else
        let brackets := descriptor.takeWhile (· == 0x5B)
        match descriptor.dropWhile (· == 0x5B) with
        | [] => throw .unsupported
        | letter :: rest =>
          match afterType letter rest with
          | none => throw .unsupported
          | some after => do
            let named := (letter :: rest).take (1 + rest.length - after.length)
            let type ← parameterType brackets named (letter = 0x4C)
            entryFrameLoop fuel after (found ++ [type])

/-- `build_entry_frame`: the receiver and the declared parameters in their slots, nothing on the stack. -/
def buildEntryFrame (descriptor : Bytes) (isStatic : Bool) (offset : Int) : Edit StackMapFrame := do
  let cf ← get
  let receiver := if isStatic then [] else [VerificationType.object cf.thisClass]
  let locals ← entryFrameLoop descriptor.length (descriptor.drop 1) receiver
  return ⟨255, offset, .full locals []⟩

/-- `insert_frame`: kept sorted by offset; a point that is already described keeps its frame. -/
def insertFrame (frames : List StackMapFrame) (frame : StackMapFrame) :
    Except ClassfileStatus (List StackMapFrame) :=
  if frames.length = classfileMaxCount then .error .limitExceeded
  else
    let before := frames.takeWhile (·.offset < frame.offset)
    match frames.dropWhile (·.offset < frame.offset) with
    | [] => .ok (before ++ [frame])
    | next :: rest => if next.offset = frame.offset then .ok frames else .ok (before ++ frame :: next :: rest)

/-! ## Return values -/

def returnOpcodeFor : UInt8 → UInt8
  | 0x56 => Opc.return_
  | 0x4A => Opc.lreturn
  | 0x46 => Opc.freturn
  | 0x44 => Opc.dreturn
  | 0x4C | 0x5B => Opc.areturn
  | _ => Opc.ireturn

def defaultOpcodeFor : UInt8 → UInt8
  | 0x4A => Opc.lconst_0
  | 0x46 => Opc.fconst_0
  | 0x44 => Opc.dconst_0
  | 0x4C | 0x5B => Opc.aconst_null
  | _ => Opc.iconst_0

/-- The letters of the return type that go into `value_descriptor`, an array of eight behind its first `used` bytes. -/
def valueLetters : Bytes → Nat → Option Bytes
  | [], _ => some []
  | c :: rest, used =>
    if used + 1 ≥ 8 then none
    else if c ≠ 0x5B ∧ c ≠ 0x4C then some [c]
    else (valueLetters rest (used + 1)).map (c :: ·)

end Jni2Hook
