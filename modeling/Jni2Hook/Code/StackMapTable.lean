import Jni2Hook.Code.CodeAttribute
import Jni2Hook.Code.Instruction

/-!
# The StackMapTable attribute

`visitors/stack_map_table.c`: frames hold absolute offsets in memory and deltas on disk. A frame keeps the tag it was
read with, which decides between the compact and the extended form when it is written.
-/

namespace Jni2Hook

open Lib

/-- `verification_type`: only Object and Uninitialized carry an operand. -/
inductive VerificationType
  | object (cpoolIndex : UInt16)
  | uninitialized (offset : Int)
  | basic (tag : {t : UInt8 // t ≠ 7 ∧ t ≠ 8})
  deriving DecidableEq, Repr

def VerificationType.integer : VerificationType := .basic ⟨1, by decide⟩
def VerificationType.float : VerificationType := .basic ⟨2, by decide⟩
def VerificationType.double : VerificationType := .basic ⟨3, by decide⟩
def VerificationType.long : VerificationType := .basic ⟨4, by decide⟩

/-- The kind of a `stack_map_frame` with the types that belong to it. -/
inductive FrameKind
  | same
  | sameLocals1StackItem (stack : VerificationType)
  | chop (count : UInt16)
  | append (locals : List VerificationType)
  | full (locals stack : List VerificationType)
  deriving DecidableEq, Repr

/-- `stack_map_frame`. -/
structure StackMapFrame where
  rawTag : UInt8
  offset : Int
  kind : FrameKind
  deriving DecidableEq, Repr

/-! ## Reading -/

/-- One round of `read_types`. -/
def readVerificationType : Parse VerificationType := do
  let tag ← byteCursorU1
  if h₇ : tag = 7 then do
    let index ← byteCursorU2
    checkOk .truncated
    return .object index
  else if h₈ : tag = 8 then do
    let offset ← byteCursorU2
    checkOk .truncated
    return .uninitialized offset.toNat
  else do
    checkOk .truncated
    return .basic ⟨tag, h₇, h₈⟩

/-- The position of a frame from the frame before it: the first frame sits at its delta. -/
def frameOffset (previous : Option Int) (delta : Int) : Int :=
  match previous with
  | none => delta
  | some p => wrapI4 (p + delta + 1)

def readDelta : Parse Int := do return (← byteCursorU2).toNat

/-- The delta and the types of a frame, by its tag. -/
def readFrameBody (tag : UInt8) : Parse (Int × FrameKind) := do
  if tag ≤ 63 then return (tag.toNat, .same)
  else if tag ≤ 127 then return (tag.toNat - 64, .sameLocals1StackItem (← readVerificationType))
  else if tag = 247 then do
    let delta ← readDelta
    return (delta, .sameLocals1StackItem (← readVerificationType))
  else if 248 ≤ tag ∧ tag ≤ 250 then return (← readDelta, .chop (UInt16.ofNat (251 - tag.toNat)))
  else if tag = 251 then return (← readDelta, .same)
  else if 252 ≤ tag ∧ tag ≤ 254 then do
    let delta ← readDelta
    return (delta, .append (← readMany readVerificationType (tag.toNat - 251)))
  else if tag = 255 then do
    let delta ← readDelta
    let localsCount ← byteCursorU2
    let locals ← readMany readVerificationType localsCount.toNat
    let stackCount ← byteCursorU2
    let stack ← readMany readVerificationType stackCount.toNat
    return (delta, .full locals stack)
  else throw .truncated

/-- One round of the loop of `stack_map_table_parse`. -/
def readFrame (previous : Option Int) : Parse StackMapFrame := do
  let tag ← byteCursorU1
  let (delta, kind) ← readFrameBody tag
  checkOk .truncated
  return ⟨tag, frameOffset previous delta, kind⟩

/-- The loop of `stack_map_table_parse`. -/
def readFrames : Nat → Option Int → Parse (List StackMapFrame)
  | 0, _ => return []
  | n + 1, previous => do
    let frame ← readFrame previous
    let rest ← readFrames n (some frame.offset)
    return frame :: rest

def readStackMapTable : Parse (List StackMapFrame) := do
  let count ← byteCursorU2
  checkOk .truncated
  readFrames count.toNat none

def stackMapTableParse (attr : AttributeInfo) : Except ClassfileStatus (List StackMapFrame) :=
  parseAll readStackMapTable attr.payload

/-! ## Writing -/

def writeVerificationType : VerificationType → Bytes
  | .object index => byteBufferU1 7 ++ byteBufferU2 index
  | .uninitialized offset => byteBufferU1 8 ++ byteBufferU2 (u2OfInt offset)
  | .basic tag => byteBufferU1 tag.1

/-- The delta that `stack_map_table_write` stores, an `i4` difference. -/
def frameDelta (previous : Option Int) (offset : Int) : Int :=
  match previous with
  | none => offset
  | some p => wrapI4 (offset - p - 1)

/-- The bytes of a frame at a delta. The compact form is kept only while it can hold the delta. -/
def writeFrameBody (rawTag : UInt8) (delta : Int) : FrameKind → Bytes
  | .same =>
    if rawTag ≤ 63 ∧ delta ≤ 63 then byteBufferU1 (u1OfInt delta)
    else byteBufferU1 251 ++ byteBufferU2 (u2OfInt delta)
  | .sameLocals1StackItem stack =>
    if rawTag ≤ 127 ∧ delta ≤ 63 then byteBufferU1 (u1OfInt (64 + delta)) ++ writeVerificationType stack
    else byteBufferU1 247 ++ (byteBufferU2 (u2OfInt delta) ++ writeVerificationType stack)
  | .chop count => byteBufferU1 (u1OfInt (251 - count.toNat)) ++ byteBufferU2 (u2OfInt delta)
  | .append locals =>
    byteBufferU1 (u1OfInt (251 + locals.length)) ++ (byteBufferU2 (u2OfInt delta) ++
      locals.flatMap writeVerificationType)
  | .full locals stack =>
    byteBufferU1 255 ++ (byteBufferU2 (u2OfInt delta) ++ (byteBufferU2 (UInt16.ofNat locals.length) ++
      (locals.flatMap writeVerificationType ++ (byteBufferU2 (UInt16.ofNat stack.length) ++
        stack.flatMap writeVerificationType))))

/-- The loop of `stack_map_table_write`. -/
def writeFrames : Option Int → List StackMapFrame → Except ClassfileStatus Bytes
  | _, [] => .ok []
  | previous, frame :: rest => do
    let delta := frameDelta previous frame.offset
    if delta < 0 ∨ delta > 0xFFFF then throw .limitExceeded
    else do
      let tail ← writeFrames (some frame.offset) rest
      return writeFrameBody frame.rawTag delta frame.kind ++ tail

/-- `stack_map_table_write`: the length is cut to a `u4` without a test. -/
def stackMapTableWrite (frames : List StackMapFrame) (nameIndex : UInt16) : Except ClassfileStatus AttributeInfo := do
  let bytes ← writeFrames none frames
  return attributeInfoOf nameIndex (byteBufferU2 (UInt16.ofNat frames.length) ++ bytes)

end Jni2Hook
