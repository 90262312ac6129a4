import Jni2Hook.ClassFile.Parser

/-!
# The Code attribute

`visitors/code_attribute.c`: the payload of a Code attribute as a node. The reader does not ask the latch behind the two
counts that end the payload, exactly as the source.
-/

namespace Jni2Hook

open Lib

/-- `exception_entry`. -/
structure ExceptionEntry where
  startPc : UInt16
  endPc : UInt16
  handlerPc : UInt16
  catchType : UInt16
  deriving DecidableEq, Repr

/-- `code_attribute`. -/
structure CodeAttribute where
  maxStack : UInt16
  maxLocals : UInt16
  code : Bytes
  exceptions : List ExceptionEntry
  attributes : List AttributeInfo
  deriving DecidableEq, Repr

/-- The bytes that a cursor over an attribute sees. -/
def AttributeInfo.payload (a : AttributeInfo) : Bytes := a.info.take a.attributeLength.toNat

def readExceptionEntry : Parse ExceptionEntry := do
  let startPc ← byteCursorU2
  let endPc ← byteCursorU2
  let handlerPc ← byteCursorU2
  let catchType ← byteCursorU2
  checkOk .truncated
  return ⟨startPc, endPc, handlerPc, catchType⟩

/-- The body of `code_attribute_parse`, up to the end-of-input test. -/
def readCodeAttribute : Parse CodeAttribute := do
  let maxStack ← byteCursorU2
  let maxLocals ← byteCursorU2
  let codeLength ← byteCursorU4
  let code ← requireBytes codeLength.toNat
  let exceptionCount ← byteCursorU2
  let exceptions ← readMany readExceptionEntry exceptionCount.toNat
  let attributeCount ← byteCursorU2
  let attributes ← readMany readAttribute attributeCount.toNat
  return ⟨maxStack, maxLocals, code.1, exceptions, attributes⟩

def codeAttributeParse (attr : AttributeInfo) : Except ClassfileStatus CodeAttribute :=
  parseAll readCodeAttribute attr.payload

def writeExceptionEntry (e : ExceptionEntry) : Bytes :=
  byteBufferU2 e.startPc ++ (byteBufferU2 e.endPc ++ (byteBufferU2 e.handlerPc ++ byteBufferU2 e.catchType))

/-- The payload that `code_attribute_write` builds. -/
def encodeCodeAttribute (code : CodeAttribute) : Bytes :=
  byteBufferU2 code.maxStack ++ (byteBufferU2 code.maxLocals ++ (byteBufferU4 (UInt32.ofNat code.code.length) ++
    (code.code ++ (byteBufferU2 (UInt16.ofNat code.exceptions.length) ++
      (code.exceptions.flatMap writeExceptionEntry ++ (byteBufferU2 (UInt16.ofNat code.attributes.length) ++
        code.attributes.flatMap writeAttribute))))))

/-- `take_buffer` and the end of `code_attribute_write`: a payload past the `u4` limit is refused. -/
def takeBuffer (nameIndex : UInt16) (payload : Bytes) : Except ClassfileStatus AttributeInfo :=
  if payload.length > 0xFFFFFFFF then .error .limitExceeded else .ok (attributeInfoOf nameIndex payload)

/-- `code_attribute_write` into an attribute, whose name stays. -/
def codeAttributeWrite (code : CodeAttribute) (attr : AttributeInfo) : Except ClassfileStatus AttributeInfo :=
  takeBuffer attr.attributeNameIndex (encodeCodeAttribute code)

end Jni2Hook
