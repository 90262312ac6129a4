import Jni2Hook.ClassFile.Parser
import Jni2Hook.Hook.BytecodeScan
import Jni2Hook.Lib.Scan
import Jni2Hook.Transform.Intern

/-!
# Remapping a class

`class_remap.c`: the passes that rename the symbolic references of a class file. A name is never edited in place; what
is renamed gets the index of an interned text. Mappings and the texts they are compared with are C strings, which a Utf8
entry becomes by ending at its first zero byte; a `NULL` string is `none` and a `NULL` table is empty.
-/

namespace Jni2Hook

open Lib

/-- `jni2hook_class_mapping`. -/
structure ClassMapping where
  from_ : Option Bytes
  to_ : Option Bytes
  deriving DecidableEq, Repr

/-- `jni2hook_member_mapping`, for a method or a field. -/
structure MemberMapping where
  owner : Option Bytes
  name : Option Bytes
  descriptor : Option Bytes
  runtimeOwner : Option Bytes
  runtimeName : Option Bytes
  runtimeDescriptor : Option Bytes
  deriving DecidableEq, Repr

/-- `remap_context`. The names of the class constants stand at their pool indices. -/
structure RemapContext where
  classes : List ClassMapping
  methods : List MemberMapping
  fields : List MemberMapping
  originalClassNames : List (Option Bytes)
  deriving DecidableEq, Repr

/-! ## Texts -/

/-- The C string in a buffer. -/
def cString (bytes : Bytes) : Bytes := bytes.takeWhile (· != 0)

def utf8Duplicate (pool : ConstantPool) (index : UInt16) : Option Bytes := (constantPoolUtf8 pool index).map cString

def lookupClass (classes : List ClassMapping) (name : Bytes) : Option Bytes :=
  classes.findSome? fun mapping =>
    match mapping.from_, mapping.to_ with
    | some from_, some to_ => if from_ = name then some to_ else none
    | _, _ => none

/-- The loop of `remap_descriptor`: the text it writes and whether a name was looked up. Every round takes at least one
character. -/
def remapDescriptorLoop (classes : List ClassMapping) : Nat → Bytes → Bytes × Bool
  | 0, rest => (rest, false)
  | _, [] => ([], false)
  | fuel + 1, c :: rest =>
    if c ≠ 0x4C then
      let (out, changed) := remapDescriptorLoop classes fuel rest
      (c :: out, changed)
    else match rest.dropWhile (· != 0x3B) with
      | [] => (c :: rest, false)
      | _ :: after =>
        let name := rest.takeWhile (· != 0x3B)
        let (out, changed) := remapDescriptorLoop classes fuel after
        match lookupClass classes name with
        | some to_ => (0x4C :: (to_ ++ 0x3B :: out), true)
        | none => (0x4C :: (name ++ 0x3B :: out), changed)

/-- `remap_descriptor`. -/
def remapDescriptor (classes : List ClassMapping) (descriptor : Bytes) : Bytes × Bool :=
  remapDescriptorLoop classes descriptor.length descriptor

/-- `remap_class_name`: the new name when it has changed. -/
def remapClassName (classes : List ClassMapping) (name : Bytes) : Option Bytes :=
  if name.head? = some 0x5B then
    let (mapped, changed) := remapDescriptor classes name
    if changed then some mapped else none
  else lookupClass classes name

/-! ## Looking members up -/

def findMember (table : List MemberMapping) (owner : Option Bytes) (name descriptor : Bytes) : Option MemberMapping :=
  match owner with
  | none => none
  | some owner => table.find? fun entry =>
      entry.owner == some owner && entry.name == some name &&
        (entry.descriptor == none || entry.descriptor == some descriptor)

/-- The name of an entry in the snapshot. A class constant without a name is reported as a failed allocation. -/
def snapshotName (pool : ConstantPool) : CpInfo → Except ClassfileStatus (Option Bytes)
  | .classInfo nameIndex =>
    match utf8Duplicate pool nameIndex with
    | some name => .ok (some name)
    | none => .error .outOfMemory
  | _ => .ok none

/-- `snapshot_class_names`: nothing stands at index zero. -/
def snapshotClassNames (pool : ConstantPool) : Except ClassfileStatus (List (Option Bytes)) := do
  let names ← pool.entries.mapM (snapshotName pool)
  return none :: names

def originalClassName (ctx : RemapContext) (index : Nat) : Option Bytes := (ctx.originalClassNames[index]?).join

/-- `find_member_inherited`. -/
def findMemberInherited (cf : ClassFile) (ctx : RemapContext) (table : List MemberMapping) (owner : Option Bytes)
    (name descriptor : Bytes) : Option MemberMapping :=
  match findMember table owner name descriptor with
  | some mapping => some mapping
  | none =>
    if owner = none ∨ originalClassName ctx cf.thisClass.toNat ≠ owner then none
    else (cf.superClass :: cf.interfaces).findSome? fun index =>
      findMember table (originalClassName ctx index.toNat) name descriptor

/-! ## Renaming one thing -/

/-- What becomes of the name of a member. -/
def newName (mapping : Option MemberMapping) (name : Bytes) : Bytes := (mapping.bind (·.runtimeName)).getD name

/-- The descriptor of a member if it changes. -/
def changedDescriptor (classes : List ClassMapping) (mapping : Option MemberMapping) (descriptor : Bytes) :
    Option Bytes :=
  match mapping.bind (·.runtimeDescriptor) with
  | some runtimeDescriptor => some runtimeDescriptor
  | none =>
    let (mapped, changed) := remapDescriptor classes descriptor
    if changed then some mapped else none

/-- `remap_name_and_type`: the index of the new constant if there is one. -/
def remapNameAndType (ctx : RemapContext) (natIndex : UInt16) (mapping : Option MemberMapping) :
    Edit (Option UInt16) := do
  let pool := (← get).constantPool
  match constantPoolAt pool natIndex with
  | some (.nameAndType nameIndex descriptorIndex) =>
    match utf8Duplicate pool nameIndex, utf8Duplicate pool descriptorIndex with
    | some name, some descriptor =>
      let changed := changedDescriptor ctx.classes mapping descriptor
      if (mapping.bind (·.runtimeName)).isSome ∨ changed.isSome then
        return some (← classFileInternNameAndType (newName mapping name) (changed.getD descriptor))
      else return none
    | _, _ => throw .outOfMemory
  | _ => return none

/-- Writes through `cf->constant_pool.entries[i]`. -/
def setEntry (position : Nat) (f : CpInfo → CpInfo) : Edit Unit :=
  modify fun cf => { cf with constantPool := ⟨cf.constantPool.entries.modify position f⟩ }

namespace CpInfo

/-- `u.ref.nat_index` or `u.dynamic.nat_index`, of the constants that have one. -/
def natIndex? : CpInfo → Option UInt16
  | fieldref _ nat | methodref _ nat | interfaceMethodref _ nat | dynamic _ nat | invokeDynamic _ nat => some nat
  | _ => none

/-- `u.ref.class_index`, of the constants that have one. -/
def classIndex? : CpInfo → Option UInt16
  | fieldref c _ | methodref c _ | interfaceMethodref c _ => some c
  | _ => none

def withNat (nat : UInt16) : CpInfo → CpInfo
  | fieldref c _ => fieldref c nat
  | methodref c _ => methodref c nat
  | interfaceMethodref c _ => interfaceMethodref c nat
  | dynamic b _ => dynamic b nat
  | invokeDynamic b _ => invokeDynamic b nat
  | entry => entry

def withClass (c : UInt16) : CpInfo → CpInfo
  | fieldref _ nat => fieldref c nat
  | methodref _ nat => methodref c nat
  | interfaceMethodref _ nat => interfaceMethodref c nat
  | entry => entry

end CpInfo

/-- The table a reference is looked up in. -/
def referenceTable (methods fields : List MemberMapping) : CpInfo → List MemberMapping
  | .fieldref _ _ => fields
  | .methodref _ _ | .interfaceMethodref _ _ => methods
  | _ => []

/-- The mapping `remap_references` finds for a constant. -/
def selectedMapping (ctx : RemapContext) (cf : ClassFile) (entry : CpInfo) : Option MemberMapping :=
  match entry.classIndex?, entry.natIndex? with
  | some classIndex, some natIndex =>
    match constantPoolAt cf.constantPool natIndex with
    | some (.nameAndType nameIndex descriptorIndex) =>
      match utf8Duplicate cf.constantPool nameIndex, utf8Duplicate cf.constantPool descriptorIndex with
      | some name, some descriptor =>
        findMemberInherited cf ctx (referenceTable ctx.methods ctx.fields entry)
          (originalClassName ctx classIndex.toNat) name descriptor
      | _, _ => none
    | _ => none
  | _, _ => none

/-- The name and the descriptor of a reference. -/
def moveNat (ctx : RemapContext) (position : Nat) (natIndex : UInt16) (mapping : Option MemberMapping) : Edit Unit := do
  match ← remapNameAndType ctx natIndex mapping with
  | some newNat => setEntry position (·.withNat newNat)
  | none => return ()

/-- The owner of a reference. -/
def moveOwner (position : Nat) (mapping : Option MemberMapping) : Edit Unit := do
  match mapping.bind (·.runtimeOwner) with
  | some runtimeOwner => do
    let ownerIndex ← classFileInternClass runtimeOwner
    setEntry position (·.withClass ownerIndex)
  | none => return ()

/-- The body of the loop of `remap_references`. -/
def remapReference (ctx : RemapContext) (position : Nat) (entry : CpInfo) : Edit Unit :=
  match entry.natIndex? with
  | none => return ()
  | some natIndex => do
    let mapping := selectedMapping ctx (← get) entry
    moveNat ctx position natIndex mapping
    moveOwner position mapping

/-- The body of the loop of `remap_class_entries`. -/
def remapClassEntry (ctx : RemapContext) (position : Nat) (entry : CpInfo) : Edit Unit := do
  match entry with
  | .classInfo _ =>
    match (originalClassName ctx (position + 1)).bind (remapClassName ctx.classes) with
    | none => return ()
    | some mapped => do
      let utf8Index ← classFileInternUtf8 mapped
      setEntry position fun _ => .classInfo utf8Index
  | _ => return ()

/-- An index that moves to another text, if there is one. -/
def internChanged (changed : Option Bytes) (index : UInt16) : Edit UInt16 :=
  match changed with
  | some bytes => classFileInternUtf8 bytes
  | none => return index

/-- The body of the loop of `remap_own_members`. -/
def remapMember (ctx : RemapContext) (table : List MemberMapping) (member : MemberInfo) : Edit MemberInfo := do
  let cf ← get
  match utf8Duplicate cf.constantPool member.nameIndex, utf8Duplicate cf.constantPool member.descriptorIndex with
  | some name, some descriptor => do
    let self := originalClassName ctx cf.thisClass.toNat
    let mapping := findMemberInherited cf ctx table self name descriptor
    let nameIndex ← internChanged (mapping.bind (·.runtimeName)) member.nameIndex
    let descriptorIndex ← internChanged (changedDescriptor ctx.classes mapping descriptor) member.descriptorIndex
    return { member with nameIndex := nameIndex, descriptorIndex := descriptorIndex }
  | _, _ => throw .outOfMemory

/-! ## The passes -/

/-- `for (u2 i = 1; i < cf->constant_pool.count; i++)`, over a pool that may grow on the way. -/
def forEachEntry (body : Nat → CpInfo → Edit Unit) : Edit Unit :=
  scanSlots (·.constantPool.entries) body classfileMaxCount 0

def remapReferences (ctx : RemapContext) : Edit Unit := forEachEntry (remapReference ctx)

def remapClassEntries (ctx : RemapContext) : Edit Unit := forEachEntry (remapClassEntry ctx)

def remapMembers (ctx : RemapContext) (table : List MemberMapping) : List MemberInfo → Edit (List MemberInfo)
  | [] => return []
  | member :: rest => do
    let member' ← remapMember ctx table member
    let rest' ← remapMembers ctx table rest
    return member' :: rest'

/-- `remap_own_members` on the fields. -/
def remapOwnFields (ctx : RemapContext) : Edit Unit := do
  let fields ← remapMembers ctx ctx.fields (← get).fields
  modify fun cf => { cf with fields := fields }

/-- `remap_own_members` on the methods. -/
def remapOwnMethods (ctx : RemapContext) : Edit Unit := do
  let methods ← remapMembers ctx ctx.methods (← get).methods
  modify fun cf => { cf with methods := methods }

def remapPasses (ctx : RemapContext) : Edit Unit := do
  remapReferences ctx
  remapOwnFields ctx
  remapOwnMethods ctx
  remapClassEntries ctx

/-- The context of a class and its mappings. -/
def remapContext (classes : List ClassMapping) (methods fields : List MemberMapping) (cf : ClassFile) :
    Except ClassfileStatus RemapContext := do
  return ⟨classes, methods, fields, ← snapshotClassNames cf.constantPool⟩

/-- The tree between the reader and the writer. -/
def remapTree (classes : List ClassMapping) (methods fields : List MemberMapping) (cf : ClassFile) :
    Except ClassfileStatus ClassFile := do
  let ctx ← remapContext classes methods fields cf
  match remapPasses ctx cf with
  | .ok _ cf' => .ok cf'
  | .error e _ => .error e

/-- `status_of` on a status other than `CLASSFILE_OK`. -/
def statusOf (status : ClassfileStatus) : Jni2HookStatus :=
  if status = .outOfMemory then .outOfMemory else .classFile

/-- `JNI2Hook_RemapClass`; `NULL` input or no bytes are not a class file. -/
def jni2hookRemapClass (input : Option Bytes) (classes : List ClassMapping) (methods fields : List MemberMapping) :
    Except Jni2HookStatus Bytes :=
  match input with
  | none | some [] => .error .classFile
  | some data =>
    (do
      let cf ← classfileParse data
      let remapped ← remapTree classes methods fields cf
      classfileSerialize remapped : Except ClassfileStatus Bytes).mapError statusOf

end Jni2Hook
