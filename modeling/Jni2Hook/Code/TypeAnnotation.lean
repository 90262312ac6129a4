import Jni2Hook.Code.CodeAttribute
import Jni2Hook.Code.Instruction

/-!
# Type annotations

`visitors/type_annotation.c`: the attribute stays opaque, and the walker only records where the bytecode offsets sit in
its payload. A walk that the source answers with `false` is a truncated payload.
-/

namespace Jni2Hook

open Lib

/-- `type_annotation_ref_kind`. -/
inductive TypeAnnotationRefKind
  | span | instruction
  deriving DecidableEq, Repr

/-- `type_annotation_ref`. -/
structure TypeAnnotationRef where
  attributeIndex : Nat
  payloadOffset : Nat
  kind : TypeAnnotationRefKind
  start : Int
  stop : Int
  deriving DecidableEq, Repr

/-! ## Walking -/

/-- `k` steps whose answers are dropped. -/
def skipMany (p : Parse Unit) (k : Nat) : Parse Unit := do
  let _ ← readMany p k
  return ()

def skipU1 : Parse Unit := do
  let _ ← byteCursorU1
  return ()

def skipU2 : Parse Unit := do
  let _ ← byteCursorU2
  return ()

mutual

/-- `skip_annotation`; the budget is 33 less the depth, so that none is left past the cap of 32. -/
def skipAnnotation : Nat → Parse Unit
  | 0 => throw .truncated
  | budget + 1 => do
    skipU2
    let pairs ← byteCursorU2
    checkOk .truncated
    skipMany (do skipU2; skipElementValue budget) pairs.toNat
    checkOk .truncated

/-- `skip_element_value`, with the same budget. -/
def skipElementValue : Nat → Parse Unit
  | 0 => throw .truncated
  | budget + 1 => do
    let tag ← byteCursorU1
    checkOk .truncated
    if tag ∈ [0x42, 0x43, 0x44, 0x46, 0x49, 0x4A, 0x53, 0x5A, 0x73, 0x63] then do
      skipU2
      checkOk .truncated
    else if tag = 0x65 then do
      skipU2
      skipU2
      checkOk .truncated
    else if tag = 0x40 then do
      skipAnnotation budget
      checkOk .truncated
    else if tag = 0x5B then do
      let values ← byteCursorU2
      checkOk .truncated
      skipMany (skipElementValue budget) values.toNat
      checkOk .truncated
    else throw .truncated

end

/-- `append_ref` behind `count` references. -/
def appendRef (count : Nat) (ref : TypeAnnotationRef) : Parse (List TypeAnnotationRef) :=
  if count = classfileMaxCount then throw .limitExceeded else return [ref]

/-- One span of a `localvar_target`. -/
def readSpan (attributeIndex count : Nat) : Parse (List TypeAnnotationRef) := do
  let at_ ← byteCursorOffset
  let start ← byteCursorU2
  let length ← byteCursorU2
  skipU2
  checkOk .truncated
  appendRef count ⟨attributeIndex, at_, .span, start.toNat, start.toNat + length.toNat⟩

/-- The loop over the spans of a `localvar_target`. -/
def readSpans (attributeIndex : Nat) : Nat → Nat → Parse (List TypeAnnotationRef)
  | 0, _ => return []
  | entries + 1, count => do
    let refs ← readSpan attributeIndex count
    let rest ← readSpans attributeIndex entries (count + refs.length)
    return refs ++ rest

/-- `read_target` behind `count` references: the references it appends. -/
def readTarget (targetType : UInt8) (attributeIndex count : Nat) : Parse (List TypeAnnotationRef) := do
  if targetType ∈ [0x00, 0x01, 0x16] then do
    skipU1
    checkOk .truncated
    return []
  else if targetType ∈ [0x10, 0x17, 0x42] then do
    skipU2
    checkOk .truncated
    return []
  else if targetType ∈ [0x11, 0x12] then do
    skipU1
    skipU1
    checkOk .truncated
    return []
  else if targetType ∈ [0x13, 0x14, 0x15] then do
    checkOk .truncated
    return []
  else if targetType ∈ [0x40, 0x41] then do
    let entries ← byteCursorU2
    checkOk .truncated
    readSpans attributeIndex entries.toNat count
  else if targetType ∈ [0x43, 0x44, 0x45, 0x46] then do
    let at_ ← byteCursorOffset
    let value ← byteCursorU2
    checkOk .truncated
    appendRef count ⟨attributeIndex, at_, .instruction, value.toNat, 0⟩
  else if targetType ∈ [0x47, 0x48, 0x49, 0x4A, 0x4B] then do
    let at_ ← byteCursorOffset
    let value ← byteCursorU2
    skipU1
    checkOk .truncated
    appendRef count ⟨attributeIndex, at_, .instruction, value.toNat, 0⟩
  else throw .unsupported

/-- One round of the loop of `type_annotation_collect`. -/
def readTypeAnnotation (attributeIndex count : Nat) : Parse (List TypeAnnotationRef) := do
  let targetType ← byteCursorU1
  checkOk .truncated
  let refs ← readTarget targetType attributeIndex count
  let pathLength ← byteCursorU1
  checkOk .truncated
  skipMany (do skipU1; skipU1) pathLength.toNat
  checkOk .truncated
  skipAnnotation 33
  return refs

/-- The loop of `type_annotation_collect`. -/
def readTypeAnnotations (attributeIndex : Nat) : Nat → Nat → Parse (List TypeAnnotationRef)
  | 0, _ => return []
  | n + 1, count => do
    let refs ← readTypeAnnotation attributeIndex count
    let rest ← readTypeAnnotations attributeIndex n (count + refs.length)
    return refs ++ rest

def readTypeAnnotationTable (attributeIndex count : Nat) : Parse (List TypeAnnotationRef) := do
  let annotations ← byteCursorU2
  checkOk .truncated
  readTypeAnnotations attributeIndex annotations.toNat count

def typeAnnotationIsCarrier (pool : ConstantPool) (nameIndex : UInt16) : Bool :=
  constantPoolUtf8Equals pool nameIndex (text "RuntimeVisibleTypeAnnotations") ||
    constantPoolUtf8Equals pool nameIndex (text "RuntimeInvisibleTypeAnnotations")

/-- `type_annotation_collect` behind the references found so far. -/
def typeAnnotationCollect (attr : AttributeInfo) (attributeIndex : Nat) (refs : List TypeAnnotationRef) :
    Except ClassfileStatus (List TypeAnnotationRef) := do
  let found ← parseAll (readTypeAnnotationTable attributeIndex refs.length) attr.payload
  return refs ++ found

/-! ## Writing back -/

/-- `write_u2` in place. -/
def writeU2 (payload : Bytes) (at_ : Nat) (value : UInt16) : Bytes :=
  (payload.set at_ (value >>> 8).toUInt8).set (at_ + 1) value.toUInt8

/-- Replaces the payload of one attribute. -/
def setPayload (attributes : List AttributeInfo) (index : Nat) (payload : Bytes) : List AttributeInfo :=
  attributes.modify index fun a => { a with info := payload }

/-- One round of `type_annotation_flush`; what was written before an error stays written. -/
def flushRef (ref : TypeAnnotationRef) (attributes : List AttributeInfo) :
    Except ClassfileStatus Unit × List AttributeInfo :=
  match attributes[ref.attributeIndex]? with
  | none => (.error .unsupported, attributes)
  | some attr =>
    let span := if ref.kind = .span then 4 else 2
    if u4 (ref.payloadOffset + span) > attr.attributeLength.toNat then (.error .unsupported, attributes)
    else if ref.start < 0 ∨ ref.start > jvmMaxCodeLength then (.error .codeTooLarge, attributes)
    else
      let started := writeU2 attr.info ref.payloadOffset (u2OfInt ref.start)
      if ref.kind = .instruction then (.ok (), setPayload attributes ref.attributeIndex started)
      else if ref.stop < ref.start ∨ ref.stop > jvmMaxCodeLength then
        (.error .codeTooLarge, setPayload attributes ref.attributeIndex started)
      else (.ok (), setPayload attributes ref.attributeIndex
        (writeU2 started (ref.payloadOffset + 2) (u2OfInt (ref.stop - ref.start))))

def typeAnnotationFlush : List TypeAnnotationRef → List AttributeInfo →
    Except ClassfileStatus Unit × List AttributeInfo
  | [], attributes => (.ok (), attributes)
  | ref :: rest, attributes =>
    match flushRef ref attributes with
    | (.error e, partly) => (.error e, partly)
    | (.ok _, written) => typeAnnotationFlush rest written

end Jni2Hook
