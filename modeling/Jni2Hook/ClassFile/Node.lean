import Jni2Hook.ByteStream

/-!
# The class file tree

The node types of `visitors/*.h` and the lookups and list edits on them. A `count` field of the source is the length of
the list it belongs to. The constant pool keeps its usable slots only: slot `i` of the file is entry `i - 1`, so the
stored count is one more than the number of entries.
-/

namespace Jni2Hook

/-! ## Constants -/

/-- `cp_info`. `empty` is the unusable slot behind a Long or a Double (tag 0); `other` carries a tag that no constant
has, as only a tree built by hand can. -/
inductive CpInfo
  | empty
  | utf8 (bytes : Bytes)
  | integer (bytes : FixedBytes 4)
  | float (bytes : FixedBytes 4)
  | long (bytes : FixedBytes 8)
  | double (bytes : FixedBytes 8)
  | classInfo (nameIndex : UInt16)
  | string (stringIndex : UInt16)
  | fieldref (classIndex natIndex : UInt16)
  | methodref (classIndex natIndex : UInt16)
  | interfaceMethodref (classIndex natIndex : UInt16)
  | nameAndType (nameIndex descriptorIndex : UInt16)
  | methodHandle (referenceKind : UInt8) (referenceIndex : UInt16)
  | methodType (descriptorIndex : UInt16)
  | dynamic (bootstrapMethodAttrIndex natIndex : UInt16)
  | invokeDynamic (bootstrapMethodAttrIndex natIndex : UInt16)
  | module (nameIndex : UInt16)
  | package (nameIndex : UInt16)
  | other (tag : UInt8)
  deriving DecidableEq, Repr

namespace CpInfo

/-- The tag byte, `JVM_CONSTANT_*`. -/
def tag : CpInfo → UInt8
  | empty => 0
  | utf8 _ => 1
  | integer _ => 3
  | float _ => 4
  | long _ => 5
  | double _ => 6
  | classInfo _ => 7
  | string _ => 8
  | fieldref _ _ => 9
  | methodref _ _ => 10
  | interfaceMethodref _ _ => 11
  | nameAndType _ _ => 12
  | methodHandle _ _ => 15
  | methodType _ => 16
  | dynamic _ _ => 17
  | invokeDynamic _ _ => 18
  | module _ => 19
  | package _ => 20
  | other t => t

/-- `cp_info_slots`. -/
def slots : CpInfo → Nat
  | long _ | double _ => 2
  | _ => 1

/-- `cp_info_tag_is_known`. -/
def tagIsKnown : CpInfo → Bool
  | empty | other _ => false
  | _ => true

end CpInfo

/-- `constant_pool`. -/
structure ConstantPool where
  entries : List CpInfo
  deriving DecidableEq, Repr

/-- The stored count: the number of entries plus one. -/
def ConstantPool.count (pool : ConstantPool) : Nat := pool.entries.length + 1

/-- `constant_pool_at`: an unusable slot is not an entry. -/
def constantPoolAt (pool : ConstantPool) (index : UInt16) : Option CpInfo :=
  if index = 0 then none
  else match pool.entries[index.toNat - 1]? with
    | some .empty => none
    | entry => entry

def constantPoolUtf8 (pool : ConstantPool) (index : UInt16) : Option Bytes :=
  match constantPoolAt pool index with
  | some (.utf8 bytes) => some bytes
  | _ => none

def constantPoolUtf8Equals (pool : ConstantPool) (index : UInt16) (text : Bytes) : Bool :=
  constantPoolUtf8 pool index == some text

/-- The slots an appended constant fills: a Long or a Double claims the one behind it. -/
def CpInfo.withPadding (entry : CpInfo) : List CpInfo :=
  if entry.slots = 2 then [entry, .empty] else [entry]

def constantPoolAppend (pool : ConstantPool) (entry : CpInfo) : Except ClassfileStatus (UInt16 × ConstantPool) :=
  if pool.count + entry.slots > classfileMaxCount then .error .limitExceeded
  else .ok (UInt16.ofNat pool.count, ⟨pool.entries ++ entry.withPadding⟩)

/-- The first slot whose constant satisfies `p`, as the interning loops look for it. -/
def constantPoolFind (pool : ConstantPool) (p : CpInfo → Bool) : Option UInt16 :=
  (pool.entries.findIdx? p).map fun i => UInt16.ofNat (i + 1)

/-! ## Attributes and members -/

/-- `attribute_info`: the payload is opaque. -/
structure AttributeInfo where
  attributeNameIndex : UInt16
  attributeLength : UInt32
  info : Bytes
  deriving DecidableEq, Repr

/-- `attribute_info_set_info` on a payload held in a list. -/
def attributeInfoOf (nameIndex : UInt16) (payload : Bytes) : AttributeInfo :=
  ⟨nameIndex, UInt32.ofNat payload.length, payload⟩

def attributeListFind (list : List AttributeInfo) (pool : ConstantPool) (name : Bytes) : Option AttributeInfo :=
  list.find? fun a => constantPoolUtf8Equals pool a.attributeNameIndex name

/-- `attribute_list_remove_named`: drops the first attribute of that name. -/
def attributeListRemoveNamed (list : List AttributeInfo) (pool : ConstantPool) (name : Bytes) : List AttributeInfo :=
  list.eraseP fun a => constantPoolUtf8Equals pool a.attributeNameIndex name

/-- The `*_list_append` of the node lists: every count is a `u2`. -/
def listAppend {α : Type} (list : List α) (item : α) : Except ClassfileStatus (List α) :=
  if list.length = classfileMaxCount then .error .limitExceeded else .ok (list ++ [item])

/-- `member_info`, a field or a method. -/
structure MemberInfo where
  accessFlags : UInt16
  nameIndex : UInt16
  descriptorIndex : UInt16
  attributes : List AttributeInfo
  deriving DecidableEq, Repr

namespace Acc

abbrev private_ : UInt16 := 0x0002
abbrev static_ : UInt16 := 0x0008
abbrev final_ : UInt16 := 0x0010
abbrev synchronized_ : UInt16 := 0x0020
abbrev bridge : UInt16 := 0x0040
abbrev varargs : UInt16 := 0x0080
abbrev native : UInt16 := 0x0100
abbrev interface : UInt16 := 0x0200
abbrev abstract_ : UInt16 := 0x0400
abbrev strict : UInt16 := 0x0800
abbrev synthetic : UInt16 := 0x1000

end Acc

/-- `(flags & flag) != 0`. -/
def hasFlag (flags flag : UInt16) : Bool := flags &&& flag != 0

def memberInfoIsStatic (member : MemberInfo) : Bool := hasFlag member.accessFlags Acc.static_

def memberInfoSetNative (member : MemberInfo) (native : Bool) : MemberInfo :=
  { member with accessFlags :=
      if native then member.accessFlags ||| Acc.native else member.accessFlags &&& ~~~Acc.native }

/-- The test of `member_list_find`; no descriptor matches any descriptor. -/
def memberMatches (pool : ConstantPool) (name : Bytes) (descriptor : Option Bytes) (member : MemberInfo) : Bool :=
  constantPoolUtf8Equals pool member.nameIndex name &&
    match descriptor with
    | some d => constantPoolUtf8Equals pool member.descriptorIndex d
    | none => true

/-- `member_list_find`, as the index of the member. -/
def memberListFind (list : List MemberInfo) (pool : ConstantPool) (name : Bytes) (descriptor : Option Bytes) :
    Option Nat :=
  list.findIdx? (memberMatches pool name descriptor)

/-! ## The class file -/

/-- `ClassFile`. -/
structure ClassFile where
  minorVersion : UInt16
  majorVersion : UInt16
  constantPool : ConstantPool
  accessFlags : UInt16
  thisClass : UInt16
  superClass : UInt16
  interfaces : List UInt16
  fields : List MemberInfo
  methods : List MemberInfo
  attributes : List AttributeInfo
  deriving DecidableEq, Repr

def classFileUtf8Equals (cf : ClassFile) (index : UInt16) (text : Bytes) : Bool :=
  constantPoolUtf8Equals cf.constantPool index text

/-- `classFile_find_method`, as the index of the method. -/
def classFileFindMethod (cf : ClassFile) (name descriptor : Bytes) : Option Nat :=
  memberListFind cf.methods cf.constantPool name (some descriptor)

/-! ## Well-formed trees -/

/-- Every slot holds a known constant, and the slot right behind each Long or Double exists and is unusable. -/
inductive PoolSlots : List CpInfo → Prop
  | nil : PoolSlots []
  | one {entry : CpInfo} {rest : List CpInfo} :
      entry.tagIsKnown = true → entry.slots ≠ 2 → PoolSlots rest → PoolSlots (entry :: rest)
  | wide {entry : CpInfo} {rest : List CpInfo} :
      entry.tagIsKnown = true → entry.slots = 2 → PoolSlots rest → PoolSlots (entry :: .empty :: rest)

/-- The text of a Utf8 fits its `u2` length. -/
def CpInfo.Fits : CpInfo → Prop
  | .utf8 bytes => bytes.length ≤ classfileMaxCount
  | _ => True

structure ConstantPool.WellFormed (pool : ConstantPool) : Prop where
  slots : PoolSlots pool.entries
  fits : ∀ entry ∈ pool.entries, entry.Fits
  count : pool.count ≤ classfileMaxCount

/-- The stored length is the length of the payload. -/
def AttributeInfo.WellFormed (a : AttributeInfo) : Prop := a.attributeLength.toNat = a.info.length

/-- A list of attributes that fits its `u2` count. -/
structure AttributesWellFormed (list : List AttributeInfo) : Prop where
  count : list.length ≤ classfileMaxCount
  items : ∀ a ∈ list, a.WellFormed

/-- A list of members that fits its `u2` count. -/
structure MembersWellFormed (list : List MemberInfo) : Prop where
  count : list.length ≤ classfileMaxCount
  items : ∀ m ∈ list, AttributesWellFormed m.attributes

/-- `JAVA_MIN_SUPPORTED_VERSION`. -/
def javaMinSupportedVersion : UInt16 := 45

/-- The trees that the writer encodes and the reader can return. -/
structure ClassFile.WellFormed (cf : ClassFile) : Prop where
  version : javaMinSupportedVersion ≤ cf.majorVersion
  pool : cf.constantPool.WellFormed
  interfaces : cf.interfaces.length ≤ classfileMaxCount
  fields : MembersWellFormed cf.fields
  methods : MembersWellFormed cf.methods
  attributes : AttributesWellFormed cf.attributes

end Jni2Hook
