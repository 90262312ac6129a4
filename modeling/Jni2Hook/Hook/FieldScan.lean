import Jni2Hook.ClassFile.PoolGrowth
import Jni2Hook.ClassFile.RoundTrip
import Jni2Hook.Hook.PatternSearch
import Mathlib.Data.List.TakeWhile

/-!
# The field behind a match

`field_scan.c`: the field access at a distance from a pattern match, looked up in the constant pool that the VM shows
and resolved with `GetFieldID` or `GetStaticFieldID`.

* `readPoolOf_own`: the pool that is read is the pool of the class.
* `findInClass_ok`: what an answer says about the bytes, the pool and the call that resolved the field.
* `field_of_access_iff`: when the answer is the field that the instruction accesses.
-/

namespace Jni2Hook

open Lib

namespace Opc

abbrev getstatic : UInt8 := 178
abbrev putstatic : UInt8 := 179
abbrev getfield : UInt8 := 180
abbrev putfield : UInt8 := 181

end Opc

/-! ## The VM -/

/-- A field ID stands for one field: the class that declares it, its name and its descriptor. -/
structure JFieldId where
  declaring : JClass
  name : Bytes
  descriptor : Bytes
  deriving DecidableEq, Repr

/-- What `GetConstantPool` stores; `NULL` is `none`. -/
structure PoolAnswer where
  count : Int
  byteCount : Int
  bytes : Option Bytes

/-- The answers of the VM, `none` for an error. `GetBytecodes` is called during the scan of the methods and once more
for the method that was found. -/
structure FieldVm where
  methods : JClass → Option (List PreparedMethod)
  bytecodes : JMethodId → Option Bytes
  constantPool : JClass → Option PoolAnswer
  /-- `GetStaticFieldID` or `GetFieldID`, of a class, a name and a descriptor. -/
  fieldId : JClass → Bool → Bytes → Bytes → Option JFieldId

/-! ## The source -/

/-- `utf8_to_buffer` with a buffer of that size. -/
def utf8ToBuffer (pool : ConstantPool) (index : UInt16) (size : Nat) : Option Bytes :=
  match constantPoolUtf8 pool index with
  | none => none
  | some bytes => if bytes.length + 1 > size then none else some bytes

/-- What the VM sees of a buffer. -/
def bufferText (buffer : Bytes) : Bytes := buffer.takeWhile (· != 0)

/-- `read_pool_of`: the count is put back in front of the entries. Bytes behind the last entry are not looked at. -/
def readPoolOf (answer : Option PoolAnswer) : Except ClassfileStatus ConstantPool :=
  match answer with
  | none => .error .truncated
  | some ⟨_, _, none⟩ => .error .truncated
  | some ⟨count, byteCount, some bytes⟩ =>
    if byteCount < 0 ∨ count < 1 then .error .truncated
    else (constantPoolRead.run (byteCursorInit
      (byteBufferU2 (UInt16.ofNat count.toNat) ++ bytes.take byteCount.toNat))).map (·.1)

/-- `bytecode_scan_find_in_class`. -/
def bytecodeScanFindInClass (vm : FieldVm) (target : JClass) (pattern : Bytes) :
    Except Jni2HookStatus (JMethodId × Nat) :=
  match bytecodePatternCompile pattern with
  | .error status => .error status
  | .ok compiled =>
    match (vm.methods target).bind (scanPreparedClass compiled) with
    | none => .error .notFound
    | some found => .ok found

/-- The three bytes of a field access: its opcode and its operand. -/
def fieldAccess : Bytes → Option (UInt8 × UInt16)
  | opcode :: high :: low :: _ =>
    if opcode = Opc.getstatic ∨ opcode = Opc.putstatic ∨ opcode = Opc.getfield ∨ opcode = Opc.putfield then
      some (opcode, joinU2 high low)
    else none
  | _ => none

/-- The name and the descriptor of a Fieldref, as far as they fit their buffers. -/
def fieldNameAndDescriptor (pool : ConstantPool) (fieldIndex : UInt16) : Option (Bytes × Bytes) :=
  match constantPoolAt pool fieldIndex with
  | some (.fieldref _ natIndex) =>
    match constantPoolAt pool natIndex with
    | some (.nameAndType nameIndex descriptorIndex) => do
      let name ← utf8ToBuffer pool nameIndex 256
      let descriptor ← utf8ToBuffer pool descriptorIndex 512
      return (name, descriptor)
    | _ => none
  | _ => none

/-- `field_scan_find_in_class`, with somewhere to store the answer: the field and whether it is static. -/
def fieldScanFindInClass (vm : FieldVm) (target : Option JClass) (pattern : Option Bytes) (instructionOffset : UInt32) :
    Except Jni2HookStatus (JFieldId × Bool) :=
  match target, pattern with
  | some target, some pattern =>
    match bytecodeScanFindInClass vm target pattern with
    | .error status => .error status
    | .ok (method, matchOffset) =>
      match vm.bytecodes method with
      | none => .error .jvmti
      | some code =>
        match fieldAccess (code.drop (matchOffset + instructionOffset.toNat)) with
        | none => .error .notFound
        | some (opcode, fieldIndex) =>
          match readPoolOf (vm.constantPool target) with
          | .error _ => .error .jvmti
          | .ok pool =>
            match fieldNameAndDescriptor pool fieldIndex with
            | none => .error .notFound
            | some (name, descriptor) =>
              let isStatic := opcode == Opc.getstatic || opcode == Opc.putstatic
              -- the class that the Fieldref names plays no part here
              match vm.fieldId target isStatic (bufferText name) (bufferText descriptor) with
              | none => .error .notFound
              | some resolved => .ok (resolved, isStatic)
  | _, _ => .error .notFound

/-! ## What the VM is relied on for -/

/-- `GetBytecodes` shows the code of the method whenever it is asked. -/
def OwnCode (vm : FieldVm) (target : JClass) :
  Prop := ∀ methods m code, vm.methods target = some methods → m ∈ methods → vm.bytecodes m.id = some code →
    m.bytecodes = some code

/-- The pool of a loaded class: its Fieldrefs name classes and its texts have no zero byte. -/
structure LoadedPool (pool : ConstantPool) : Prop where
  wellFormed : pool.WellFormed
  owners : ∀ index classIndex natIndex, constantPoolAt pool index = some (.fieldref classIndex natIndex) →
    ∃ owner, classNameAt pool classIndex = some owner
  texts : ∀ bytes, CpInfo.utf8 bytes ∈ pool.entries → (0 : UInt8) ∉ bytes

/-- `GetConstantPool` shows the entries of that pool and their count. -/
def OwnPool (vm : FieldVm) (target : JClass) (pool : ConstantPool) : Prop :=
  ∀ answer bytes, vm.constantPool target = some answer → answer.bytes = some bytes →
    answer.count = pool.count ∧ answer.byteCount = bytes.length ∧ writeCpInfos pool.entries = .ok bytes

/-- The loaded classes: the fields each of them declares, the classes a field search in it goes through, itself first,
and the class that a name stands for. -/
structure LoadedFields where
  declares : JClass → Bool → Bytes → Bytes → Bool
  searchOrder : JClass → List JClass
  classNamed : Bytes → Option JClass

/-- The class whose field a search from this class ends at. -/
def LoadedFields.declarer (loaded : LoadedFields) (start : JClass) (isStatic : Bool) (name descriptor : Bytes) :
    Option JClass :=
  (loaded.searchOrder start).find? fun k => loaded.declares k isStatic name descriptor

/-- `GetStaticFieldID` and `GetFieldID` search from the class they are given. -/
def ResolvesOnClass (vm : FieldVm) (loaded : LoadedFields) : Prop := ∀ start isStatic name descriptor,
  vm.fieldId start isStatic name descriptor = (loaded.declarer start isStatic name descriptor).map
    (⟨·, name, descriptor⟩)

/-! ## The pool that is read -/

/-- With the count in front, the answer of the VM is read back as the pool of the class. -/
theorem readPoolOf_own {vm : FieldVm} {target : JClass} {pool pool' : ConstantPool} (hown : OwnPool vm target pool)
    (hpool : pool.WellFormed) (h : readPoolOf (vm.constantPool target) = .ok pool') : pool' = pool := by
  unfold readPoolOf at h
  split at h
  · cases h
  · cases h
  · rename_i count byteCount bytes hanswer
    split at h
    · cases h
    · obtain ⟨hcount, hbytes, hwrite⟩ := hown _ bytes hanswer rfl
      dsimp only at hcount hbytes
      subst hcount hbytes
      have hwritten : writeConstantPool pool = .ok (byteBufferU2 (UInt16.ofNat pool.count) ++ bytes) := by
        rw [writeConstantPool, hwrite]
        rfl
      obtain ⟨s, hrun, -⟩ := reads_constantPool hpool hwritten 0 (byteCursorInit _) [] (by rw [List.append_nil]; rfl)
      rw [Int.toNat_natCast, Int.toNat_natCast, List.take_length, hrun] at h
      cases h
      rfl

theorem utf8ToBuffer_eq_some {pool : ConstantPool} {index : UInt16} {size : Nat} {bytes : Bytes}
    (h : utf8ToBuffer pool index size = some bytes) : constantPoolUtf8 pool index = some bytes := by
  unfold utf8ToBuffer at h
  split at h
  · cases h
  · rename_i found hfound
    split at h
    · cases h
    · cases h
      exact hfound

theorem bufferText_of_loaded {pool : ConstantPool} (hpool : LoadedPool pool) {index : UInt16} {bytes : Bytes}
    (h : constantPoolUtf8 pool index = some bytes) : bufferText bytes = bytes := by
  have hmem := List.mem_of_getElem? (constantPoolAt_eq_some.mp (constantPoolUtf8_eq_some.mp h)).2.2
  rw [bufferText, List.takeWhile_eq_self_iff]
  intro b hb
  have : b ≠ 0 := fun hzero => hpool.texts bytes hmem (hzero ▸ hb)
  simpa using this

theorem fieldNameAndDescriptor_eq_some {pool : ConstantPool} {fieldIndex : UInt16} {name descriptor : Bytes}
    (h : fieldNameAndDescriptor pool fieldIndex = some (name, descriptor)) : ∃ classIndex natIndex,
      constantPoolAt pool fieldIndex = some (.fieldref classIndex natIndex) ∧
      nameAndTypeAt pool natIndex = some (name, descriptor) := by
  unfold fieldNameAndDescriptor at h
  split at h
  · rename_i classIndex natIndex hfield
    split at h
    · rename_i nameIndex descriptorIndex hnat
      obtain ⟨_, hname, h⟩ := Option.bind_eq_some_iff.mp h
      obtain ⟨_, hdescriptor, h⟩ := Option.bind_eq_some_iff.mp h
      cases h
      exact ⟨classIndex, natIndex, hfield, nameAndTypeAt_eq_some.mpr ⟨nameIndex, descriptorIndex, hnat,
        utf8ToBuffer_eq_some hname, utf8ToBuffer_eq_some hdescriptor⟩⟩
    · cases h
  · cases h

/-! ## The access -/

/-- The bytes at the position are a field access, and its Fieldref names a field of a class. -/
def FieldAccessAt (pool : ConstantPool) (code : Bytes) (position : Nat) (isStatic : Bool)
    (owner name descriptor : Bytes) : Prop :=
  ∃ opcode high low rest classIndex natIndex, code.drop position = opcode :: high :: low :: rest ∧
    (if isStatic then opcode = Opc.getstatic ∨ opcode = Opc.putstatic
      else opcode = Opc.getfield ∨ opcode = Opc.putfield) ∧
    constantPoolAt pool (joinU2 high low) = some (.fieldref classIndex natIndex) ∧
    classNameAt pool classIndex = some owner ∧ nameAndTypeAt pool natIndex = some (name, descriptor)

theorem fieldAccess_eq_some {bytes : Bytes} {opcode : UInt8} {index : UInt16}
    (h : fieldAccess bytes = some (opcode, index)) :
    ∃ high low rest, bytes = opcode :: high :: low :: rest ∧ index = joinU2 high low ∧
      (opcode = Opc.getstatic ∨ opcode = Opc.putstatic ∨ opcode = Opc.getfield ∨ opcode = Opc.putfield) := by
  unfold fieldAccess at h
  split at h
  · rename_i opcode' high low rest
    split at h
    · rename_i hopcode
      cases h
      exact ⟨high, low, rest, rfl, rfl, hopcode⟩
    · cases h
  · cases h

/-- The match, the access at its distance and the call behind an answer. -/
theorem findInClass_ok {vm : FieldVm} {target : JClass} {source : Bytes} {instructionOffset : UInt32}
    {pool : ConstantPool} {id : JFieldId} {isStatic : Bool} (hcode : OwnCode vm target) (hown : OwnPool vm target pool)
    (hpool : LoadedPool pool)
    (h : fieldScanFindInClass vm (some target) (some source) instructionOffset = .ok (id, isStatic)) :
    ∃ pattern methods m code offset owner name descriptor, bytecodePatternCompile source = .ok pattern ∧
      vm.methods target = some methods ∧ scanPreparedClass pattern methods = some (m, offset) ∧
      ⟨m, some code⟩ ∈ methods ∧ OccursAt pattern code offset ∧
      FieldAccessAt pool code (offset + instructionOffset.toNat) isStatic owner name descriptor ∧
      vm.fieldId target isStatic name descriptor = some id := by
  unfold fieldScanFindInClass at h
  dsimp only at h
  split at h
  · cases h
  rename_i method matchOffset hscan
  split at h
  · cases h
  rename_i code hbytecodes
  split at h
  · cases h
  rename_i opcode fieldIndex haccess
  split at h
  · cases h
  rename_i pool' hread
  obtain rfl := readPoolOf_own hown hpool.wellFormed hread
  split at h
  · cases h
  rename_i name descriptor hnamed
  split at h
  · cases h
  rename_i resolved hresolved
  cases h
  -- the scan
  unfold bytecodeScanFindInClass at hscan
  split at hscan
  · cases hscan
  rename_i pattern hpattern
  split at hscan
  · cases hscan
  rename_i found hfound
  cases hscan
  obtain ⟨methods, hmethods, hfound⟩ := Option.bind_eq_some_iff.mp hfound
  obtain ⟨p, hp, rfl, code', hcode', hoccurs⟩ := hasPattern_of_scan hfound
  have hsame := hcode methods p code hmethods hp hbytecodes
  rw [hcode'] at hsame
  cases hsame
  -- the access
  obtain ⟨high, low, rest, hdrop, rfl, hopcode⟩ := fieldAccess_eq_some haccess
  obtain ⟨classIndex, natIndex, hfield, hnat⟩ := fieldNameAndDescriptor_eq_some hnamed
  obtain ⟨owner, howner⟩ := hpool.owners _ _ _ hfield
  obtain ⟨nameIndex, descriptorIndex, -, hname, hdescriptor⟩ := nameAndTypeAt_eq_some.mp hnat
  rw [bufferText_of_loaded hpool hname, bufferText_of_loaded hpool hdescriptor] at hresolved
  refine ⟨pattern, methods, p.id, code, matchOffset, owner, name, descriptor, hpattern, hmethods, hfound, ?_, hoccurs,
    ⟨opcode, high, low, rest, classIndex, natIndex, hdrop, ?_, hfield, howner, hnat⟩, hresolved⟩
  · rw [← hcode']
    exact hp
  · rcases hopcode with rfl | rfl | rfl | rfl <;> simp

/-- **When the answer is the field that the instruction accesses.** For every class, pattern and distance: an answer
comes from a match with a field access at that distance, static exactly when the answer says so, and the field is the
one that resolves on the class which the Fieldref names if and only if a search from that class ends at the same
declaration as a search from the scanned class. -/
theorem field_of_access_iff {vm : FieldVm} {loaded : LoadedFields} {target : JClass} {source : Bytes}
    {instructionOffset : UInt32} {pool : ConstantPool} {id : JFieldId} {isStatic : Bool} (hcode : OwnCode vm target)
    (hown : OwnPool vm target pool) (hpool : LoadedPool pool) (hresolves : ResolvesOnClass vm loaded)
    (h : fieldScanFindInClass vm (some target) (some source) instructionOffset = .ok (id, isStatic)) :
    ∃ pattern methods m code offset owner name descriptor, bytecodePatternCompile source = .ok pattern ∧
      vm.methods target = some methods ∧ scanPreparedClass pattern methods = some (m, offset) ∧
      ⟨m, some code⟩ ∈ methods ∧ OccursAt pattern code offset ∧
      FieldAccessAt pool code (offset + instructionOffset.toNat) isStatic owner name descriptor ∧
      ((∃ C, loaded.classNamed owner = some C ∧ vm.fieldId C isStatic name descriptor = some id) ↔
        ∃ C, loaded.classNamed owner = some C ∧
          loaded.declarer C isStatic name descriptor = loaded.declarer target isStatic name descriptor) := by
  obtain ⟨pattern, methods, m, code, offset, owner, name, descriptor, hpattern, hmethods, hscan, hmem, hoccurs, haccess,
    hid⟩ := findInClass_ok hcode hown hpool h
  refine ⟨pattern, methods, m, code, offset, owner, name, descriptor, hpattern, hmethods, hscan, hmem,
    hoccurs, haccess, ?_⟩
  rw [hresolves] at hid
  obtain ⟨D, hD, rfl⟩ := Option.map_eq_some_iff.mp hid
  constructor
  · rintro ⟨C, hC, hfield⟩
    rw [hresolves] at hfield
    obtain ⟨D', hD', heq⟩ := Option.map_eq_some_iff.mp hfield
    rw [JFieldId.mk.injEq] at heq
    refine ⟨C, hC, ?_⟩
    rw [hD', hD, heq.1]
  · rintro ⟨C, hC, hsame⟩
    refine ⟨C, hC, ?_⟩
    rw [hresolves, hsame, hD]
    rfl

/-- A pool with a Fieldref to `x : I` of the class `A` and one of the class `B`. -/
def twoFieldsPool : ConstantPool :=
  ⟨[.utf8 (text "A"), .classInfo 1, .utf8 (text "B"), .classInfo 3, .utf8 (text "x"),
    .utf8 (text "I"), .nameAndType 5 6, .fieldref 2 7, .fieldref 4 7]⟩

/-- Two classes without superclasses, each with a static field `x : I`. -/
def twoFields : LoadedFields where
  declares _ isStatic name descriptor := isStatic && name == text "x" && descriptor == text "I"
  searchOrder start := [start]
  classNamed name := if name = text "A" then some 1 else if name = text "B" then some 2 else none

/-- The class `A` with the method `getstatic A.x; getstatic B.x; return`. -/
def twoFieldsVm : FieldVm where
  methods _ := some [⟨5, some [0xB2, 0, 8, 0xB2, 0, 9, 0xB1]⟩]
  bytecodes m := if m = 5 then some [0xB2, 0, 8, 0xB2, 0, 9, 0xB1] else none
  constantPool _ := (writeCpInfos twoFieldsPool.entries).toOption.map fun bytes =>
    ⟨twoFieldsPool.count, bytes.length, some bytes⟩
  fieldId start isStatic name descriptor :=
    (twoFields.declarer start isStatic name descriptor).map (⟨·, name, descriptor⟩)

theorem twoFields_ownCode : OwnCode twoFieldsVm 1 := by
  intro methods m code hmethods hm hcode
  cases hmethods
  rw [List.mem_singleton] at hm
  subst hm
  exact hcode

theorem twoFields_ownPool : OwnPool twoFieldsVm 1 twoFieldsPool := by
  intro answer bytes hanswer hbytes
  rw [twoFieldsVm] at hanswer
  dsimp only at hanswer
  obtain ⟨written, hwritten, rfl⟩ := Option.map_eq_some_iff.mp hanswer
  cases hbytes
  cases hwrite : writeCpInfos twoFieldsPool.entries with
  | error e =>
    rw [hwrite] at hwritten
    cases hwritten
  | ok w =>
    rw [hwrite] at hwritten
    cases hwritten
    exact ⟨rfl, rfl, rfl⟩

theorem twoFields_resolves : ResolvesOnClass twoFieldsVm twoFields := fun _ _ _ _ => rfl

theorem twoFields_loaded : LoadedPool twoFieldsPool where
  wellFormed := by
    refine ⟨?_, ?_, by decide⟩
    · repeat' first | exact .nil | refine .one rfl (by decide) ?_
    · intro entry hentry
      simp only [twoFieldsPool, List.mem_cons, List.not_mem_nil, or_false] at hentry
      rcases hentry with rfl | rfl | rfl | rfl | rfl | rfl | rfl | rfl |
        rfl <;> simp [CpInfo.Fits, text, classfileMaxCount]
  owners index classIndex natIndex h := by
    have hmem := List.mem_of_getElem? (constantPoolAt_eq_some.mp h).2.2
    simp only [twoFieldsPool, List.mem_cons, List.not_mem_nil, or_false, reduceCtorEq, false_or,
      CpInfo.fieldref.injEq] at hmem
    rcases hmem with ⟨rfl, rfl⟩ | ⟨rfl, rfl⟩
    · exact ⟨text "A", by decide +kernel⟩
    · exact ⟨text "B", by decide +kernel⟩
  texts bytes hmem := by
    simp only [twoFieldsPool, List.mem_cons, List.not_mem_nil, or_false, reduceCtorEq, false_or,
      CpInfo.utf8.injEq] at hmem
    rcases hmem with rfl | rfl | rfl | rfl <;> decide +kernel

theorem field_of_access_own : fieldScanFindInClass twoFieldsVm (some 1) (some (text "B2")) 0 =
      .ok (⟨1, text "x", text "I"⟩, true) ∧
    ∃ code offset owner name descriptor, FieldAccessAt twoFieldsPool code offset true owner name descriptor ∧
      ((∃ C, twoFields.classNamed owner = some C ∧
          twoFieldsVm.fieldId C true name descriptor = some ⟨1, text "x", text "I"⟩) ↔
        ∃ C, twoFields.classNamed owner = some C ∧
          twoFields.declarer C true name descriptor = twoFields.declarer 1 true name descriptor) := by
  have h : fieldScanFindInClass twoFieldsVm (some 1) (some (text "B2")) 0 = .ok (⟨1, text "x", text "I"⟩, true) := by
    decide +kernel
  obtain ⟨_, _, _, code, offset, owner, name, descriptor, -, -, -, -, -, haccess, hiff⟩ :=
    field_of_access_iff twoFields_ownCode twoFields_ownPool twoFields_loaded twoFields_resolves h
  exact ⟨h, code, _, owner, name, descriptor, haccess, hiff⟩

/-- At the access to `B.x` the field `A.x` is answered. -/
theorem field_of_other_class : OwnCode twoFieldsVm 1 ∧ OwnPool twoFieldsVm 1 twoFieldsPool ∧ LoadedPool twoFieldsPool ∧
    ResolvesOnClass twoFieldsVm twoFields ∧
    fieldScanFindInClass twoFieldsVm (some 1) (some (text "B2")) 3 = .ok (⟨1, text "x", text "I"⟩, true) ∧
    FieldAccessAt twoFieldsPool [0xB2, 0, 8, 0xB2, 0, 9, 0xB1] 3 true (text "B") (text "x") (text "I") ∧
    twoFields.classNamed (text "B") = some 2 ∧
    twoFieldsVm.fieldId 2 true (text "x") (text "I") = some ⟨2, text "x", text "I"⟩ := by
  refine ⟨twoFields_ownCode, twoFields_ownPool, twoFields_loaded, twoFields_resolves, by decide +kernel,
    ⟨0xB2, 0, 9, [0xB1], 4, 7, rfl, .inl rfl, by decide +kernel, by decide +kernel, by decide +kernel⟩,
    by decide +kernel, by decide +kernel⟩

end Jni2Hook
