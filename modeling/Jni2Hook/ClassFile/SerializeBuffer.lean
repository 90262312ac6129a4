import Jni2Hook.ClassFile.RoundTrip
import Jni2Hook.Lib.Growable

/-!
# The buffer of the writer

`classfile_serialize` writes into a `byte_buffer`, which grows as it is written to. Each call on the buffer asks for at
most one larger block, and `alloc` says which of these are given.

* `byteBufferPerform`: the calls on the buffer.
* `classfileSerializeBuffered`: the writer, call by call.
* `serialize_buffered`: it returns the bytes of the tree, or that there is not enough memory.
-/

namespace Jni2Hook

open Lib

/-! ## The source -/

/-- `byte_buffer`. -/
abbrev ByteBuffer := Growable UInt8

/-- `byte_buffer_reserve`. -/
def byteBufferReserve (b : ByteBuffer) (extra : Nat) (granted : Bool) :
    Option ByteBuffer := b.reserve 4096 extra granted

/-- `byte_buffer_u1`, `byte_buffer_u2` and `byte_buffer_u4`, by the bytes of the value. -/
def byteBufferPut (b : ByteBuffer) (value : Bytes) (granted : Bool) : Option ByteBuffer := do
  let b ← byteBufferReserve b value.length granted
  if b.ok then b.push value else return b

/-- `byte_buffer_bytes`. It does not read behind its data. -/
def byteBufferPutBytes (b : ByteBuffer) (data : Bytes) (length : Nat) (granted : Bool) : Option ByteBuffer :=
  if length = 0 then some b
  else do
    let b ← byteBufferReserve b length granted
    if b.ok then
      if data.length < length then none else b.push (byteBufferBytes data length)
    else return b

/-- `byte_buffer_release`. -/
def byteBufferRelease (b : ByteBuffer) : Option Bytes := (b.data.take b.size).mapM id

/-- A call on a buffer. -/
inductive ByteBufferCall where
  | reserve (extra : Nat)
  | u1 (value : UInt8)
  | u2 (value : UInt16)
  | u4 (value : UInt32)
  | bytes (data : Bytes) (length : Nat)
  deriving DecidableEq, Repr

def byteBufferPerform (b : ByteBuffer) (granted : Bool) : ByteBufferCall → Option ByteBuffer
  | .reserve extra => byteBufferReserve b extra granted
  | .u1 value => byteBufferPut b (byteBufferU1 value) granted
  | .u2 value => byteBufferPut b (byteBufferU2 value) granted
  | .u4 value => byteBufferPut b (byteBufferU4 value) granted
  | .bytes data length => byteBufferPutBytes b data length granted

/-- Calls from number `k` on. -/
def runByteBuffer (alloc : Nat → Bool) : Nat → ByteBuffer → List ByteBufferCall → Option ByteBuffer
  | _, b, [] => some b
  | k, b, c :: rest => do
    let b ← byteBufferPerform b (alloc k) c
    runByteBuffer alloc (k + 1) b rest

/-- One constant of `write_constant_pool`, and whether its tag is known. -/
def cpInfoCalls : CpInfo → List ByteBufferCall × Bool
  | .empty => ([], true)
  | .utf8 bytes => ([.u1 1, .u2 (UInt16.ofNat bytes.length), .bytes bytes bytes.length], true)
  | .integer bytes => ([.u1 3, .bytes bytes.1 4], true)
  | .float bytes => ([.u1 4, .bytes bytes.1 4], true)
  | .long bytes => ([.u1 5, .bytes bytes.1 8], true)
  | .double bytes => ([.u1 6, .bytes bytes.1 8], true)
  | .classInfo i => ([.u1 7, .u2 i], true)
  | .module i => ([.u1 19, .u2 i], true)
  | .package i => ([.u1 20, .u2 i], true)
  | .string i => ([.u1 8, .u2 i], true)
  | .fieldref c n => ([.u1 9, .u2 c, .u2 n], true)
  | .methodref c n => ([.u1 10, .u2 c, .u2 n], true)
  | .interfaceMethodref c n => ([.u1 11, .u2 c, .u2 n], true)
  | .nameAndType n d => ([.u1 12, .u2 n, .u2 d], true)
  | .methodHandle k i => ([.u1 15, .u1 k, .u2 i], true)
  | .methodType d => ([.u1 16, .u2 d], true)
  | .dynamic b n => ([.u1 17, .u2 b, .u2 n], true)
  | .invokeDynamic b n => ([.u1 18, .u2 b, .u2 n], true)
  | .other tag => ([.u1 tag], false)

/-- The loop of `write_constant_pool`, which ends at a tag it does not know. -/
def cpInfosCalls : List CpInfo → List ByteBufferCall × Bool
  | [] => ([], true)
  | entry :: rest =>
    if (cpInfoCalls entry).2 then ((cpInfoCalls entry).1 ++ (cpInfosCalls rest).1, (cpInfosCalls rest).2)
    else cpInfoCalls entry

/-- `write_attributes`. -/
def attributesCalls (list : List AttributeInfo) : List ByteBufferCall :=
  .u2 (UInt16.ofNat list.length) ::
    list.flatMap fun a => [.u2 a.attributeNameIndex, .u4 a.attributeLength, .bytes a.info a.attributeLength.toNat]

/-- `write_members`. -/
def membersCalls (list : List MemberInfo) : List ByteBufferCall :=
  .u2 (UInt16.ofNat list.length) ::
    list.flatMap fun m => .u2 m.accessFlags :: .u2 m.nameIndex :: .u2 m.descriptorIndex :: attributesCalls m.attributes

/-- What `classfile_serialize` writes up to the end of the pool. -/
def headCalls (cf : ClassFile) : List ByteBufferCall :=
  .reserve 8192 :: .u4 javaClassfileMagic :: .u2 cf.minorVersion :: .u2 cf.majorVersion ::
    .u2 (UInt16.ofNat cf.constantPool.count) :: (cpInfosCalls cf.constantPool.entries).1

/-- And behind it. -/
def tailCalls (cf : ClassFile) : List ByteBufferCall :=
  .u2 cf.accessFlags :: .u2 cf.thisClass :: .u2 cf.superClass :: .u2 (UInt16.ofNat cf.interfaces.length) ::
    (cf.interfaces.map .u2 ++ membersCalls cf.fields ++ membersCalls cf.methods ++ attributesCalls cf.attributes)

/-- `classfile_serialize`; `none` when it reads or writes outside of a block, or does not return. -/
def classfileSerializeBuffered (alloc : Nat → Bool) (cf : ClassFile) : Option (Except ClassfileStatus Bytes) := do
  let b ← runByteBuffer alloc 0 .empty (headCalls cf)
  if (cpInfosCalls cf.constantPool.entries).2 = false then return .error .unsupported
  let b ← runByteBuffer alloc (headCalls cf).length b (tailCalls cf)
  if b.ok = false then return .error .outOfMemory
  return .ok (← byteBufferRelease b)

/-! ## The bytes of the calls -/

/-- What a call adds to the buffer. -/
def ByteBufferCall.written : ByteBufferCall → Bytes
  | .reserve _ => []
  | .u1 value => byteBufferU1 value
  | .u2 value => byteBufferU2 value
  | .u4 value => byteBufferU4 value
  | .bytes data length => byteBufferBytes data length

/-- How many bytes a call asks room for. -/
def ByteBufferCall.extra : ByteBufferCall → Nat
  | .reserve extra => extra
  | .bytes _ length => length
  | c => c.written.length

/-- The data of the call is there. -/
def ByteBufferCall.Stored : ByteBufferCall → Prop
  | .bytes data length => length ≤ data.length
  | _ => True

/-- The calls of the writer. -/
def serializeCalls (cf : ClassFile) : List ByteBufferCall := headCalls cf ++ tailCalls cf

theorem written_attributesCalls (list : List AttributeInfo) :
    (attributesCalls list).flatMap ByteBufferCall.written = writeAttributes list := by
  rw [attributesCalls, List.flatMap_cons, List.flatMap_assoc, writeAttributes]
  refine congrArg (byteBufferU2 _ ++ ·) (List.flatMap_congr fun a _ => ?_)
  simp [ByteBufferCall.written, writeAttribute]

theorem written_membersCalls (list : List MemberInfo) :
    (membersCalls list).flatMap ByteBufferCall.written = writeMembers list := by
  rw [membersCalls, List.flatMap_cons, List.flatMap_assoc, writeMembers]
  refine congrArg (byteBufferU2 _ ++ ·) (List.flatMap_congr fun m _ => ?_)
  simp only [List.flatMap_cons, written_attributesCalls]
  rfl

theorem byteBufferBytes_fixed {n : Nat} (bytes : FixedBytes n) : byteBufferBytes bytes.1 n = bytes.1 :=
  List.take_of_length_le (Nat.le_of_eq bytes.2)

/-- The bytes of a constant that is known. -/
theorem writeCpInfo_eq (entry : CpInfo) : writeCpInfo entry =
    if (cpInfoCalls entry).2 then .ok ((cpInfoCalls entry).1.flatMap ByteBufferCall.written)
      else .error .unsupported := by
  cases entry with
  | utf8 bytes => simp [writeCpInfo, cpInfoCalls, ByteBufferCall.written, byteBufferBytes]
  | _ => simp [writeCpInfo, cpInfoCalls, ByteBufferCall.written, byteBufferBytes_fixed]

theorem writeCpInfos_eq (entries : List CpInfo) : writeCpInfos entries =
    if (cpInfosCalls entries).2 then .ok ((cpInfosCalls entries).1.flatMap ByteBufferCall.written)
    else .error .unsupported := by
  induction entries with
  | nil => rfl
  | cons entry rest ih =>
    rw [writeCpInfos, writeCpInfo_eq, ih, cpInfosCalls]
    cases hentry : (cpInfoCalls entry).2 with
    | false => simp [hentry, bind, Except.bind]
    | true =>
      cases hrest : (cpInfosCalls rest).2 with
      | false => simp [bind, Except.bind]
      | true => simp [bind, Except.bind, pure, Except.pure]

/-- What the calls write is what the writer returns. -/
theorem classfileSerialize_eq (cf : ClassFile) : classfileSerialize cf =
    if (cpInfosCalls cf.constantPool.entries).2 then .ok ((serializeCalls cf).flatMap ByteBufferCall.written)
    else .error .unsupported := by
  rw [classfileSerialize, writeConstantPool, writeCpInfos_eq]
  cases hpool : (cpInfosCalls cf.constantPool.entries).2 with
  | false => rfl
  | true =>
    have hinterfaces : (cf.interfaces.map ByteBufferCall.u2).flatMap ByteBufferCall.written =
        cf.interfaces.flatMap byteBufferU2 := by
      rw [List.flatMap_map]
      rfl
    simp only [serializeCalls, headCalls, tailCalls, List.flatMap_cons, List.flatMap_append, hinterfaces,
      written_membersCalls, written_attributesCalls, ByteBufferCall.written, writeInterfaces]
    simp

/-! ## Runs -/

/-- A call as a call on a buffer that grows. -/
def ByteBufferCall.grow (c : ByteBufferCall) : GrowCall UInt8 := ⟨c.extra, c.written, []⟩

section Runs

variable {alloc : Nat → Bool} {b b' : ByteBuffer} {values : Bytes} {demand : Nat} {c : ByteBufferCall}

theorem ByteBufferCall.Stored.length (h : c.Stored) : c.written.length ≤ c.extra := by
  cases c with
  | reserve => exact Nat.zero_le _
  | bytes data length => exact List.length_take_le _ _
  | _ => exact Nat.le_refl _

/-- The functions of the buffer are calls that write nothing behind their values. -/
theorem byteBufferPerform_eq (h : b.Holds 12 values [] demand) (hok : b.ok = true) (hstored : c.Stored)
    (hfit : values.length + c.extra ≤ 2 ^ 63) (granted : Bool) :
    byteBufferPerform b granted c = b.call (2 ^ 12) c.grow granted := by
  cases c with
  | reserve extra => exact (h.call_reserve hok (by decide) hfit granted).symm
  | bytes data length =>
    rw [byteBufferPerform, byteBufferPutBytes]
    split
    · rename_i hzero
      subst hzero
      have hnone : values.length + 0 ≤ 2 ^ 63 := hfit
      rw [ByteBufferCall.grow, ByteBufferCall.extra, ByteBufferCall.written, byteBufferBytes, List.take_zero,
        h.call_reserve hok (by decide) hnone granted, h.reserve_zero hnone]
    · rw [ByteBufferCall.grow, h.call_plain hok (by decide) hstored.length hfit granted]
      refine congrArg _ (funext fun b => ?_)
      rw [if_neg (Nat.not_lt.mpr hstored)]
      rfl
  | _ => exact (h.call_plain hok (by decide) hstored.length hfit granted).symm

/-- A buffer that was refused a block is left alone. -/
theorem byteBufferPerform_latched (hok : b.ok = false) (granted : Bool) (c : ByteBufferCall) :
    byteBufferPerform b granted c = some b := by
  have hreserve (extra : Nat) : byteBufferReserve b extra granted = some b := by
    rw [byteBufferReserve, Growable.reserve, hok]
    rfl
  cases c with
  | reserve extra => exact hreserve extra
  | bytes data length =>
    rw [byteBufferPerform, byteBufferPutBytes, hreserve]
    split
    · rfl
    · simp [hok]
  | _ => simp [byteBufferPerform, byteBufferPut, hreserve, hok]

theorem runByteBuffer_latched (hok : b.ok = false) (k : Nat) (calls : List ByteBufferCall) :
    runByteBuffer alloc k b calls = some b := by
  induction calls generalizing k with
  | nil => rfl
  | cons c rest ih =>
    rw [runByteBuffer, byteBufferPerform_latched hok]
    exact ih (k + 1)

/-- A run of the source is one of calls on a buffer that grows. -/
theorem runByteBuffer_eq {calls : List ByteBufferCall} (h : b.Holds 12 values [] demand) (hok : b.ok = true)
    (hstored : ∀ c ∈ calls, c.Stored) (k : Nat)
    (hfit : demandOf values.length (answered alloc k (calls.map ByteBufferCall.grow)) ≤ 2 ^ 63) :
    runByteBuffer alloc k b calls = runCalls (2 ^ 12) b (answered alloc k (calls.map ByteBufferCall.grow)) := by
  induction calls generalizing b values demand k with
  | nil => rfl
  | cons c rest ih =>
    have hhere := List.forall_mem_cons.mp hstored
    have hdemand : values.length + c.extra ≤ 2 ^ 63 ∧
        demandOf (values.length + c.written.length) (answered alloc (k + 1) (rest.map ByteBufferCall.grow)) ≤ 2 ^ 63 :=
      Nat.max_le.mp hfit
    rw [runByteBuffer, List.map_cons, answered, runCalls, byteBufferPerform_eq h hok hhere.1 hdemand.1]
    rcases h.call (c := c.grow) hok (by decide) hhere.1.length hdemand.1 (alloc k) with ⟨-, -, heq⟩ |
      ⟨b₁, heq, hok₁, -, h₁⟩
    · rw [heq]
      exact (runByteBuffer_latched rfl (k + 1) rest).trans (runCalls_latched rfl _).symm
    · rw [heq]
      exact ih h₁ hok₁ hhere.2 (k + 1) (by rw [List.length_append]; exact hdemand.2)

theorem runByteBuffer_append (k : Nat) (b : ByteBuffer) (calls calls' : List ByteBufferCall) :
    runByteBuffer alloc k b (calls ++ calls') =
      (runByteBuffer alloc k b calls).bind fun b => runByteBuffer alloc (k + calls.length) b calls' := by
  induction calls generalizing k b with
  | nil => rfl
  | cons c rest ih =>
    rw [List.cons_append, runByteBuffer, runByteBuffer]
    cases byteBufferPerform b (alloc k) c with
    | none => rfl
    | some b₁ =>
      have hrest := ih (k + 1) b₁
      rw [Nat.add_right_comm, Nat.add_assoc] at hrest
      exact hrest

theorem byteBufferRelease_eq (h : b.Holds 12 values [] demand) : byteBufferRelease b = some values := by
  have hvalues := h.contents
  rw [List.append_nil, ← h.size] at hvalues
  rw [byteBufferRelease, hvalues, List.mapM_map]
  exact (List.mapM_pure (m := Option) (f := id)).trans (congrArg some (List.map_id values))

/-- A run writes what its calls write, or is refused a block that it needs. -/
theorem runByteBuffer_ran {calls : List ByteBufferCall} (hstored : ∀ c ∈ calls, c.Stored)
    (hfit : demandOf 0 (answered alloc 0 (calls.map ByteBufferCall.grow)) ≤ 2 ^ 63) :
    ∃ b, runByteBuffer alloc 0 .empty calls = some b ∧
      ((b.ok = true ∧ byteBufferRelease b = some (calls.flatMap ByteBufferCall.written) ∧
          ∀ k, GrowsAt 12 (calls.map ByteBufferCall.grow) k → alloc k = true) ∨
        (b.ok = false ∧ ∃ k, GrowsAt 12 (calls.map ByteBufferCall.grow) k ∧ alloc k = false)) := by
  have hroom : ∀ c ∈ calls.map ByteBufferCall.grow, c.values.length + c.behind.length ≤ c.extra := by
    intro g hmem
    obtain ⟨c, hc, rfl⟩ := List.mem_map.mp hmem
    exact (hstored c hc).length
  obtain ⟨b, hrun, hresult⟩ := run_answered (f := 12) (by decide) hroom hfit
  refine ⟨b, (runByteBuffer_eq (holds_empty 12 0) rfl hstored 0 hfit).trans hrun, hresult.imp_left ?_⟩
  rintro ⟨hok, hholds, hgranted⟩
  refine ⟨hok, ?_, hgranted⟩
  rw [List.flatMap_map] at hholds
  exact byteBufferRelease_eq hholds.values_only

end Runs

/-! ## The writer -/

section Writer

variable {cf : ClassFile}

/-- The call asks for what it writes. -/
def ByteBufferCall.Exact (c : ByteBufferCall) : Prop := c.extra = c.written.length

theorem ByteBufferCall.Exact.stored {c : ByteBufferCall} (h : c.Exact) : c.Stored := by
  cases c with
  | bytes data length =>
    have hlength : length = (data.take length).length := h
    rw [List.length_take] at hlength
    show length ≤ data.length
    omega
  | _ => trivial

theorem exact_bytes {data : Bytes} {length : Nat} (h : length ≤ data.length) :
    (ByteBufferCall.bytes data length).Exact :=
  (List.length_take_of_le h).symm

theorem exact_u1 (value : UInt8) : (ByteBufferCall.u1 value).Exact := rfl

theorem exact_u2 (value : UInt16) : (ByteBufferCall.u2 value).Exact := rfl

theorem exact_u4 (value : UInt32) : (ByteBufferCall.u4 value).Exact := rfl

theorem exact_cpInfoCalls (entry : CpInfo) : ∀ c ∈ (cpInfoCalls entry).1, c.Exact := by
  cases entry with
  | utf8 bytes => simp [cpInfoCalls, exact_u1, exact_u2, exact_bytes (Nat.le_refl bytes.length)]
  | integer bytes => simp [cpInfoCalls, exact_u1, exact_bytes (Nat.le_of_eq bytes.2.symm)]
  | float bytes => simp [cpInfoCalls, exact_u1, exact_bytes (Nat.le_of_eq bytes.2.symm)]
  | long bytes => simp [cpInfoCalls, exact_u1, exact_bytes (Nat.le_of_eq bytes.2.symm)]
  | double bytes => simp [cpInfoCalls, exact_u1, exact_bytes (Nat.le_of_eq bytes.2.symm)]
  | _ => simp [cpInfoCalls, exact_u1, exact_u2]

theorem exact_cpInfosCalls (entries : List CpInfo) : ∀ c ∈ (cpInfosCalls entries).1, c.Exact := by
  induction entries with
  | nil => exact fun _ hmem => absurd hmem List.not_mem_nil
  | cons entry rest ih =>
    rw [cpInfosCalls]
    split
    · exact List.forall_mem_append.mpr ⟨exact_cpInfoCalls entry, ih⟩
    · exact exact_cpInfoCalls entry

theorem exact_attributesCalls {list : List AttributeInfo} (h : ∀ a ∈ list, a.WellFormed) :
    ∀ c ∈ attributesCalls list, c.Exact := by
  refine List.forall_mem_cons.mpr ⟨exact_u2 _, List.forall_mem_flatMap.mpr fun a ha => ?_⟩
  simp [exact_u2, exact_u4, exact_bytes (Nat.le_of_eq (h a ha))]

theorem exact_membersCalls {list : List MemberInfo} (h : ∀ m ∈ list, ∀ a ∈ m.attributes, a.WellFormed) :
    ∀ c ∈ membersCalls list, c.Exact := by
  refine List.forall_mem_cons.mpr ⟨exact_u2 _, List.forall_mem_flatMap.mpr fun m hm => ?_⟩
  have hattributes := exact_attributesCalls (h m hm)
  simpa [exact_u2] using hattributes

/-- But for the room it asks for at its start, the writer asks for what it writes. -/
theorem exact_serializeCalls (hmembers : ∀ m ∈ cf.fields ++ cf.methods, ∀ a ∈ m.attributes, a.WellFormed)
    (hattributes : ∀ a ∈ cf.attributes, a.WellFormed) : ∀ c ∈ (serializeCalls cf).tail, c.Exact := by
  have hpool := exact_cpInfosCalls cf.constantPool.entries
  have hfields := exact_membersCalls fun m hm => hmembers m (List.mem_append_left _ hm)
  have hmethods := exact_membersCalls fun m hm => hmembers m (List.mem_append_right _ hm)
  have hclass := exact_attributesCalls hattributes
  have hinterfaces : ∀ c ∈ cf.interfaces.map ByteBufferCall.u2, c.Exact := by
    intro c hmem
    obtain ⟨i, -, rfl⟩ := List.mem_map.mp hmem
    exact exact_u2 i
  have hhead : ∀ c ∈ (headCalls cf).tail, c.Exact := by
    simp only [headCalls, List.tail_cons, List.forall_mem_cons]
    exact ⟨exact_u4 _, exact_u2 _, exact_u2 _, exact_u2 _, hpool⟩
  have htail : ∀ c ∈ tailCalls cf, c.Exact := by
    simp only [tailCalls, List.forall_mem_cons, List.forall_mem_append]
    exact ⟨exact_u2 _, exact_u2 _, exact_u2 _, exact_u2 _, ⟨⟨hinterfaces, hfields⟩, hmethods⟩, hclass⟩
  exact List.forall_mem_append.mpr ⟨hhead, htail⟩

theorem stored_serializeCalls (h : ∀ c ∈ (serializeCalls cf).tail, c.Exact) : ∀ c ∈ serializeCalls cf, c.Stored :=
  List.forall_mem_cons.mpr ⟨trivial, fun c hc => (h c hc).stored⟩

/-- The calls of the writer, on a buffer that grows. -/
def serializeGrowth (cf : ClassFile) : List (GrowCall UInt8) := (serializeCalls cf).map ByteBufferCall.grow

/-- The writer asks for the bytes it writes, or for what it asked for at its start. -/
theorem demandOf_serializeGrowth (h : ∀ c ∈ (serializeCalls cf).tail, c.Exact) (alloc : Nat → Bool) :
    demandOf 0 (answered alloc 0 (serializeGrowth cf)) ≤
      max 8192 ((serializeCalls cf).flatMap ByteBufferCall.written).length := by
  have hrest : demandOf 0 (answered alloc 1 (serializeGrowth cf).tail) ≤
      0 + ((answered alloc 1 (serializeGrowth cf).tail).flatMap (·.1.values)).length + 0 := by
    refine demandOf_le 0 fun g hmem => ?_
    obtain ⟨c, hc, heq⟩ := List.mem_map.mp (mem_answered hmem)
    rw [← heq]
    exact Nat.le_of_eq (h c hc)
  have hfirst : answered alloc 0 (serializeGrowth cf) =
      (⟨8192, [], []⟩, alloc 0) :: answered alloc 1 (serializeGrowth cf).tail := rfl
  have hwritten : (serializeGrowth cf).tail.flatMap (·.values) =
      (serializeCalls cf).flatMap ByteBufferCall.written := List.flatMap_map ..
  rw [values_answered, Nat.zero_add, Nat.add_zero, hwritten] at hrest
  rw [hfirst, demandOf, List.length_nil, Nat.zero_add, Nat.zero_add]
  exact Nat.max_le.mpr ⟨Nat.le_max_left _ _, Nat.le_trans hrest (Nat.le_max_right _ _)⟩

/-- **The writer returns the bytes of the tree**, whatever blocks it gets on the way, or that there is not enough
memory. It does the latter exactly when a block was refused that it needed, and it neither reads nor writes outside of a
block. A constant with an unknown tag is reported as such, with any memory. -/
theorem serialize_buffered (hmembers : ∀ m ∈ cf.fields ++ cf.methods, ∀ a ∈ m.attributes, a.WellFormed)
    (hattributes : ∀ a ∈ cf.attributes, a.WellFormed)
    (hfit : ((serializeCalls cf).flatMap ByteBufferCall.written).length ≤ 2 ^ 63) (alloc : Nat → Bool) :
    (∀ e, classfileSerialize cf = .error e → classfileSerializeBuffered alloc cf = some (.error e)) ∧
    ∀ w, classfileSerialize cf = .ok w →
      (classfileSerializeBuffered alloc cf = some (.ok w) ∧ ∀ k, GrowsAt 12 (serializeGrowth cf) k → alloc k = true) ∨
        (classfileSerializeBuffered alloc cf = some (.error .outOfMemory) ∧
          ∃ k, GrowsAt 12 (serializeGrowth cf) k ∧ alloc k = false) := by
  have hexact := exact_serializeCalls hmembers hattributes
  have hstored := stored_serializeCalls hexact
  have hall : demandOf 0 (answered alloc 0 (serializeGrowth cf)) ≤ 2 ^ 63 :=
    Nat.le_trans (demandOf_serializeGrowth hexact alloc) (Nat.max_le.mpr ⟨by decide, hfit⟩)
  rw [classfileSerialize_eq]
  cases hpool : (cpInfosCalls cf.constantPool.entries).2 with
  | false =>
    refine ⟨fun e heq => ?_, fun w heq => (by cases heq)⟩
    have hhead : demandOf 0 (answered alloc 0 ((headCalls cf).map ByteBufferCall.grow)) ≤ 2 ^ 63 := by
      rw [serializeGrowth, serializeCalls, List.map_append, answered_append] at hall
      exact Nat.le_trans (demandOf_append_le 0 _ _) hall
    obtain ⟨b, hrun, -⟩ := runByteBuffer_ran (fun c hc => hstored c (List.mem_append_left _ hc)) hhead
    cases heq
    simp [classfileSerializeBuffered, hrun, hpool]
  | true =>
    refine ⟨fun e heq => (by cases heq), fun w heq => ?_⟩
    cases heq
    obtain ⟨b, hrun, hresult⟩ := runByteBuffer_ran hstored hall
    have hwhole : classfileSerializeBuffered alloc cf =
        if b.ok = false then some (.error .outOfMemory) else (byteBufferRelease b).map .ok := by
      rw [serializeCalls, runByteBuffer_append, Nat.zero_add] at hrun
      obtain ⟨b₀, hhead, htail⟩ := Option.bind_eq_some_iff.mp hrun
      simp only [classfileSerializeBuffered, hhead, hpool, htail, Option.bind_eq_bind, Option.bind_some]
      cases b.ok with
      | true => cases byteBufferRelease b <;> rfl
      | false => rfl
    rw [hwhole]
    rcases hresult with ⟨hok, hrelease, hgranted⟩ | ⟨hok, hrefused⟩
    · rw [hok, hrelease]
      exact .inl ⟨rfl, hgranted⟩
    · rw [hok]
      exact .inr ⟨rfl, hrefused⟩

end Writer

/-- A class whose last attribute does not fit into the first block. -/
def longClass : ClassFile := { wideClass with attributes := [attributeInfoOf 12 (List.replicate 8192 0)] }

theorem longClass_wellFormed : longClass.WellFormed := by
  refine ⟨wideClass_wellFormed.version, wideClass_wellFormed.pool, wideClass_wellFormed.interfaces,
    wideClass_wellFormed.fields, wideClass_wellFormed.methods, Nat.succ_le_of_lt (by decide : 0 < classfileMaxCount),
    fun a hmem => ?_⟩
  rw [List.mem_singleton.mp hmem, AttributeInfo.WellFormed, attributeInfoOf, List.length_replicate]
  rfl

/-- The first block is given, and no larger one. -/
theorem serialize_buffered_longClass :
    classfileSerializeBuffered (fun k => k == 0) longClass = some (.error .outOfMemory) := by
  have hmembers : ∀ m ∈ longClass.fields ++ longClass.methods, ∀ a ∈ m.attributes, a.WellFormed := by
    intro m hmem
    rcases List.mem_append.mp hmem with hfield | hmethod
    · exact (longClass_wellFormed.fields.items m hfield).items
    · exact (longClass_wellFormed.methods.items m hmethod).items
  obtain ⟨w, hw⟩ := classfileSerialize_ok longClass_wellFormed
  have hfit : ((serializeCalls longClass).flatMap ByteBufferCall.written).length ≤ 2 ^ 63 := by decide +kernel
  -- the call that writes the attribute asks for more than is left of the block
  have hlast : ((serializeGrowth longClass)[56]?).any (fun c =>
      (runCalls (2 ^ 12) .empty (((serializeGrowth longClass).take 56).map fun c => (c, true))).any fun b =>
        b.capacity < b.size + c.extra) = true := by decide +kernel
  obtain ⟨c, hc, hmore⟩ := (Option.any_eq_true _ _).mp hlast
  obtain ⟨b, hrun, hlt⟩ := (Option.any_eq_true _ _).mp hmore
  obtain ⟨hlength, rfl⟩ := List.getElem?_eq_some_iff.mp hc
  have hsplit : serializeGrowth longClass = (serializeGrowth longClass).take 56 ++
      (serializeGrowth longClass)[56] :: (serializeGrowth longClass).drop 57 := by
    rw [← List.drop_eq_getElem_cons hlength, List.take_append_drop]
  have hgrows : GrowsAt 12 (serializeGrowth longClass) 56 :=
    ⟨_, _, _, b, hsplit, List.length_take_of_le (Nat.le_of_lt hlength), hrun, of_decide_eq_true hlt⟩
  rcases (serialize_buffered hmembers longClass_wellFormed.attributes.items hfit fun k => k == 0).2 w hw with
    ⟨-, hgranted⟩ | ⟨hresult, -⟩
  · exact absurd (hgranted 56 hgrows) (by decide)
  · exact hresult

end Jni2Hook
