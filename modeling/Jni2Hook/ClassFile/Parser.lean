import Jni2Hook.ClassFile.Node

/-!
# Reading and writing class files

`classfile_parse` of `class_file_parser.c` with `constant_pool_read` of `cp_info.c`, and `classfile_serialize` of
`class_file_writer.c`. The reader asks the latch exactly where the source asks it.
-/

namespace Jni2Hook

open Lib

/-! ## The reader -/

/-- One constant of `constant_pool_read`: the `switch` on the tag. -/
def constantPoolReadEntry : Parse CpInfo := do
  let tag ← byteCursorU1
  match tag with
  | 1 => do
    let length ← byteCursorU2
    let bytes ← requireBytes length.toNat
    return .utf8 bytes.1
  | 3 => return .integer (← requireBytes 4)
  | 4 => return .float (← requireBytes 4)
  | 5 => return .long (← requireBytes 8)
  | 6 => return .double (← requireBytes 8)
  | 7 => return .classInfo (← byteCursorU2)
  | 19 => return .module (← byteCursorU2)
  | 20 => return .package (← byteCursorU2)
  | 8 => return .string (← byteCursorU2)
  | 9 => return .fieldref (← byteCursorU2) (← byteCursorU2)
  | 10 => return .methodref (← byteCursorU2) (← byteCursorU2)
  | 11 => return .interfaceMethodref (← byteCursorU2) (← byteCursorU2)
  | 12 => return .nameAndType (← byteCursorU2) (← byteCursorU2)
  | 15 => return .methodHandle (← byteCursorU1) (← byteCursorU2)
  | 16 => return .methodType (← byteCursorU2)
  | 17 => return .dynamic (← byteCursorU2) (← byteCursorU2)
  | 18 => return .invokeDynamic (← byteCursorU2) (← byteCursorU2)
  | _ => do
    checkOk .truncated
    throw .constantTag

/-- The loop of `constant_pool_read` over the slots that are left. A Long or a Double in the last slot is refused. -/
def constantPoolReadLoop : Nat → Parse (List CpInfo)
  | 0 => return []
  | n + 1 => do
    let entry ← constantPoolReadEntry
    if entry.slots = 2 then
      match n with
      | 0 => throw .constantIndex
      | m + 1 => do
        checkOk .truncated
        let rest ← constantPoolReadLoop m
        return entry :: .empty :: rest
    else do
      checkOk .truncated
      let rest ← constantPoolReadLoop n
      return entry :: rest

def constantPoolRead : Parse ConstantPool := do
  let count ← byteCursorU2
  checkOk .truncated
  if count < 1 then throw .constantIndex
  else return ⟨← constantPoolReadLoop (count.toNat - 1)⟩

/-- One round of `read_attributes`. -/
def readAttribute : Parse AttributeInfo := do
  let nameIndex ← byteCursorU2
  let length ← byteCursorU4
  let payload ← requireBytes length.toNat
  return ⟨nameIndex, length, payload.1⟩

def readAttributes : Parse (List AttributeInfo) := do
  let count ← byteCursorU2
  checkOk .truncated
  readMany readAttribute count.toNat

/-- One round of `read_members`. -/
def readMember : Parse MemberInfo := do
  let accessFlags ← byteCursorU2
  let nameIndex ← byteCursorU2
  let descriptorIndex ← byteCursorU2
  checkOk .truncated
  return ⟨accessFlags, nameIndex, descriptorIndex, ← readAttributes⟩

def readMembers : Parse (List MemberInfo) := do
  let count ← byteCursorU2
  checkOk .truncated
  readMany readMember count.toNat

def readInterfaces : Parse (List UInt16) := do
  let count ← byteCursorU2
  checkOk .truncated
  let list ← readMany byteCursorU2 count.toNat
  checkOk .truncated
  return list

/-- `JAVA_CLASSFILE_MAGIC`. -/
def javaClassfileMagic : UInt32 := 0xCAFEBABE

/-- The magic number and the version. -/
def readVersion : Parse (UInt16 × UInt16) := do
  let magic ← byteCursorU4
  if magic ≠ javaClassfileMagic then do
    checkOk .truncated
    throw .magic
  else do
    let minorVersion ← byteCursorU2
    let majorVersion ← byteCursorU2
    checkOk .truncated
    if majorVersion < javaMinSupportedVersion then throw .version
    else return (minorVersion, majorVersion)

/-- The body of `classfile_parse`, up to the end-of-input test. -/
def readClassFile : Parse ClassFile := do
  let (minorVersion, majorVersion) ← readVersion
  let constantPool ← constantPoolRead
  let accessFlags ← byteCursorU2
  let thisClass ← byteCursorU2
  let superClass ← byteCursorU2
  checkOk .truncated
  let interfaces ← readInterfaces
  let fields ← readMembers
  let methods ← readMembers
  let attributes ← readAttributes
  return ⟨minorVersion, majorVersion, constantPool, accessFlags, thisClass, superClass, interfaces, fields, methods,
    attributes⟩

/-- Runs a reader over a whole byte string: what is left over is an error. -/
def parseAll {α : Type} (p : Parse α) (data : Bytes) : Except ClassfileStatus α :=
  match p.run (byteCursorInit data) with
  | .error e => .error e
  | .ok (a, c) => if c.rest.isEmpty then .ok a else .error .trailingBytes

def classfileParse (data : Bytes) : Except ClassfileStatus ClassFile := parseAll readClassFile data

/-! ## The writer -/

/-- One constant of `write_constant_pool`. -/
def writeCpInfo : CpInfo → Except ClassfileStatus Bytes
  | .empty => .ok []
  | .utf8 bytes => .ok (byteBufferU1 1 ++ (byteBufferU2 (UInt16.ofNat bytes.length) ++ bytes))
  | .integer bytes => .ok (byteBufferU1 3 ++ bytes.1)
  | .float bytes => .ok (byteBufferU1 4 ++ bytes.1)
  | .long bytes => .ok (byteBufferU1 5 ++ bytes.1)
  | .double bytes => .ok (byteBufferU1 6 ++ bytes.1)
  | .classInfo i => .ok (byteBufferU1 7 ++ byteBufferU2 i)
  | .module i => .ok (byteBufferU1 19 ++ byteBufferU2 i)
  | .package i => .ok (byteBufferU1 20 ++ byteBufferU2 i)
  | .string i => .ok (byteBufferU1 8 ++ byteBufferU2 i)
  | .fieldref c n => .ok (byteBufferU1 9 ++ (byteBufferU2 c ++ byteBufferU2 n))
  | .methodref c n => .ok (byteBufferU1 10 ++ (byteBufferU2 c ++ byteBufferU2 n))
  | .interfaceMethodref c n => .ok (byteBufferU1 11 ++ (byteBufferU2 c ++ byteBufferU2 n))
  | .nameAndType n d => .ok (byteBufferU1 12 ++ (byteBufferU2 n ++ byteBufferU2 d))
  | .methodHandle k i => .ok (byteBufferU1 15 ++ (byteBufferU1 k ++ byteBufferU2 i))
  | .methodType d => .ok (byteBufferU1 16 ++ byteBufferU2 d)
  | .dynamic b n => .ok (byteBufferU1 17 ++ (byteBufferU2 b ++ byteBufferU2 n))
  | .invokeDynamic b n => .ok (byteBufferU1 18 ++ (byteBufferU2 b ++ byteBufferU2 n))
  | .other _ => .error .unsupported

/-- The loop of `write_constant_pool`. -/
def writeCpInfos : List CpInfo → Except ClassfileStatus Bytes
  | [] => .ok []
  | entry :: rest => do
    let head ← writeCpInfo entry
    let tail ← writeCpInfos rest
    return head ++ tail

def writeConstantPool (pool : ConstantPool) : Except ClassfileStatus Bytes := do
  let entries ← writeCpInfos pool.entries
  return byteBufferU2 (UInt16.ofNat pool.count) ++ entries

def writeAttribute (a : AttributeInfo) : Bytes :=
  byteBufferU2 a.attributeNameIndex ++ (byteBufferU4 a.attributeLength ++
    byteBufferBytes a.info a.attributeLength.toNat)

def writeAttributes (list : List AttributeInfo) : Bytes :=
  byteBufferU2 (UInt16.ofNat list.length) ++ list.flatMap writeAttribute

def writeMember (m : MemberInfo) : Bytes :=
  byteBufferU2 m.accessFlags ++ (byteBufferU2 m.nameIndex ++ (byteBufferU2 m.descriptorIndex ++
    writeAttributes m.attributes))

def writeMembers (list : List MemberInfo) : Bytes :=
  byteBufferU2 (UInt16.ofNat list.length) ++ list.flatMap writeMember

def writeInterfaces (list : List UInt16) : Bytes :=
  byteBufferU2 (UInt16.ofNat list.length) ++ list.flatMap byteBufferU2

def classfileSerialize (cf : ClassFile) : Except ClassfileStatus Bytes := do
  let pool ← writeConstantPool cf.constantPool
  return byteBufferU4 javaClassfileMagic ++ (byteBufferU2 cf.minorVersion ++ (byteBufferU2 cf.majorVersion ++
    (pool ++ (byteBufferU2 cf.accessFlags ++ (byteBufferU2 cf.thisClass ++ (byteBufferU2 cf.superClass ++
      (writeInterfaces cf.interfaces ++ (writeMembers cf.fields ++ (writeMembers cf.methods ++
        writeAttributes cf.attributes)))))))))

/-! ## A small file -/

/-- The class `x/Y` with one method `f()V` whose code is a single `return`. -/
def plainClassBytes : Bytes :=
  [0xCA, 0xFE, 0xBA, 0xBE, 0, 0, 0, 52, 0, 7,
    1, 0, 3] ++ text "x/Y" ++ [7, 0, 1, 1, 0, 1] ++ text "f" ++ [1, 0, 3] ++ text "()V" ++ [1, 0, 4] ++ text "Code" ++
  [7, 0, 1, 0, 33, 0, 2, 0, 0, 0, 0, 0, 0, 0, 1, 0, 1, 0, 3, 0, 4, 0, 1,
    0, 5, 0, 0, 0, 13, 0, 0, 0, 1, 0, 0, 0, 1, 0xB1, 0, 0, 0, 0, 0, 0]

end Jni2Hook
