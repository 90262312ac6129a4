import Jni2Hook.ClassFile.RoundTrip
import Jni2Hook.Lib.Machine
import Jni2Hook.Lib.Program
import Jni2Hook.Transform.ClassTransform

/-!
# Transforms keep the tree well formed

* `Extends`: a well-formed tree whose constant pool starts with given entries. Each transform keeps it, also when it
  fails on the way.
* `extends_run`: so does any sequence of transforms.
-/

namespace Jni2Hook

open Lib

/-! ## The pool -/

theorem PoolSlots.append_one {entries : List CpInfo} {entry : CpInfo} (h : PoolSlots entries)
    (hk : entry.tagIsKnown = true) (hs : entry.slots ≠ 2) : PoolSlots (entries ++ [entry]) := by
  induction h with
  | nil => exact .one hk hs .nil
  | one hk' hs' _ ih => exact .one hk' hs' ih
  | wide hk' hs' _ ih => exact .wide hk' hs' ih

/-- A constant that fills one slot and that the interning functions make. -/
structure CpInfo.Internable (entry : CpInfo) : Prop where
  known : entry.tagIsKnown = true
  slot : entry.slots = 1
  fits : entry.Fits

theorem ConstantPool.WellFormed.added {pool : ConstantPool} {entry : CpInfo} (h : pool.WellFormed)
    (he : entry.Internable) (hroom : pool.count + 1 ≤ classfileMaxCount) :
    ConstantPool.WellFormed ⟨pool.entries ++ [entry]⟩ := by
  refine ⟨?_, ?_, ?_⟩
  · exact h.slots.append_one he.known (by simp [he.slot])
  · intro e' hmem
    rcases List.mem_append.mp hmem with hmem | hmem
    · exact h.fits e' hmem
    · rw [List.mem_singleton.mp hmem]
      exact he.fits
  · simp only [ConstantPool.count, List.length_append, List.length_singleton] at hroom ⊢
    omega

/-! ## The invariant -/

/-- The tree is well formed, and its pool still starts with `entries`. -/
structure Extends (entries : List CpInfo) (cf : ClassFile) : Prop where
  wellFormed : cf.WellFormed
  kept : entries <+: cf.constantPool.entries

section Extends

variable {entries : List CpInfo} {cf : ClassFile}

theorem Extends.withPool (h : Extends entries cf) {pool : ConstantPool} (hp : pool.WellFormed)
    (hkept : cf.constantPool.entries <+: pool.entries) : Extends entries { cf with constantPool := pool } :=
  ⟨⟨h.wellFormed.version, hp, h.wellFormed.interfaces, h.wellFormed.fields, h.wellFormed.methods,
    h.wellFormed.attributes⟩, h.kept.trans hkept⟩

theorem Extends.withMethods (h : Extends entries cf) {methods : List MemberInfo} (hm : MembersWellFormed methods) :
    Extends entries { cf with methods := methods } :=
  ⟨⟨h.wellFormed.version, h.wellFormed.pool, h.wellFormed.interfaces, h.wellFormed.fields, hm,
    h.wellFormed.attributes⟩, h.kept⟩

/-! ## Interning -/

theorem keeps_internConstant {entry : CpInfo} (he : entry.Internable) :
    Keeps (Extends entries) (internConstant entry) := by
  intro cf h
  unfold After
  obtain ⟨index, -, hrun⟩ | ⟨-, hrun⟩ | ⟨-, hroom, hrun⟩ := internConstant_cases he.slot cf
  · rw [hrun]
    exact h
  · rw [hrun]
    exact h
  · rw [hrun]
    exact h.withPool (h.wellFormed.pool.added he hroom) (List.prefix_append _ _)

theorem keeps_internUtf8 (text : Bytes) : Keeps (Extends entries) (classFileInternUtf8 text) := by
  unfold classFileInternUtf8
  split
  · exact Keeps.throw _
  · rename_i hlength
    exact keeps_internConstant ⟨rfl, rfl, Nat.le_of_not_lt hlength⟩

theorem keeps_internClass (name : Bytes) : Keeps (Extends entries) (classFileInternClass name) :=
  (keeps_internUtf8 name).bind fun _ => keeps_internConstant ⟨rfl, rfl, trivial⟩

theorem keeps_internNameAndType (name descriptor : Bytes) :
    Keeps (Extends entries) (classFileInternNameAndType name descriptor) :=
  (keeps_internUtf8 name).bind fun _ => (keeps_internUtf8 descriptor).bind fun _ =>
    keeps_internConstant ⟨rfl, rfl, trivial⟩

theorem keeps_internMethodref (classIndex : UInt16) (name descriptor : Bytes) :
    Keeps (Extends entries) (classFileInternMethodref classIndex name descriptor) :=
  (keeps_internNameAndType name descriptor).bind fun _ => keeps_internConstant ⟨rfl, rfl, trivial⟩

/-! ## Steps of the transforms -/

theorem keeps_withCause {α : Type} {I : ClassFile → Prop} {x : Edit α} (hx : Keeps I x) : Keeps I (withCause x) := by
  intro cf h
  have hafter := hx cf h
  unfold After at hafter ⊢
  unfold withCause
  cases hr : x cf with
  | ok a cf' =>
    rw [hr] at hafter
    exact hafter
  | error e cf' =>
    rw [hr] at hafter
    exact hafter

theorem keeps_liftCause {α : Type} {I : ClassFile → Prop} (x : Except ClassfileStatus α) : Keeps I (liftCause x) := by
  cases x
  · exact Keeps.throw _
  · exact Keeps.pure _

theorem keeps_lookup {α : Type} {I : ClassFile → Prop} (f : ClassFile → Except TransformStatus α) :
    Keeps I (lookup f) := by
  apply Keeps.get_bind
  intro cf h
  split <;> exact h

/-- What was looked up may use the invariant. -/
theorem keeps_lookup_bind {α β : Type} {I : ClassFile → Prop} {f : ClassFile → Except TransformStatus α}
    {g : α → Transform β} (h : ∀ cf a, I cf → f cf = .ok a → Keeps I (g a)) : Keeps I (lookup f >>= g) := by
  intro cf hcf
  unfold lookup
  simp only [after_bind, after_get]
  cases hf : f cf with
  | ok a => exact h cf a hcf hf cf hcf
  | error e => exact hcf

theorem keeps_loadCode {I : ClassFile → Prop} (index : Nat) : Keeps I (loadCode index) := by
  apply Keeps.get_bind
  intro cf h
  split
  · exact h
  · exact (keeps_liftCause _).bind (fun _ => Keeps.pure _) cf h

theorem keeps_insertNodesAt {I : ClassFile → Prop} (editor : CodeEditor) (offset : Nat) (nodes : List Instruction)
    (extraStack : UInt16) : Keeps I (insertNodesAt editor offset nodes extraStack) := by
  unfold insertNodesAt
  split
  · exact Keeps.pure _
  · exact Keeps.throw _
  · exact Keeps.throw _

theorem keeps_modifyMethod (index : Nat) {f : ClassFile → MemberInfo → MemberInfo}
    (hf : ∀ cf m, AttributesWellFormed m.attributes → AttributesWellFormed (f cf m).attributes) :
    Keeps (Extends entries) (modifyMethod index f) := by
  apply Keeps.modify
  intro cf h
  refine h.withMethods ⟨?_, fun m hm => ?_⟩
  · rw [List.length_modify]
    exact h.wellFormed.methods.count
  · obtain ⟨i, hi, rfl⟩ := List.getElem_of_mem hm
    have hi' : i < cf.methods.length := by simpa using hi
    rw [List.getElem_modify]
    split
    · exact hf cf _ (h.wellFormed.methods.items _ (List.getElem_mem hi'))
    · exact h.wellFormed.methods.items _ (List.getElem_mem hi')

theorem keeps_appendMethod {method : MemberInfo} (hm : AttributesWellFormed method.attributes) :
    Keeps (Extends entries) (appendMethod method) := by
  apply Keeps.get_bind
  intro cf h
  unfold listAppend
  split
  · rename_i e happend
    exact h
  · rename_i methods happend
    split at happend
    · cases happend
    · rename_i hcount
      cases happend
      refine h.withMethods ⟨?_, fun m hmem => ?_⟩
      · have := h.wellFormed.methods.count
        simp only [List.length_append, List.length_singleton]
        omega
      · rcases List.mem_append.mp hmem with hmem | hmem
        · exact h.wellFormed.methods.items m hmem
        · rw [List.mem_singleton.mp hmem]
          exact hm

theorem keeps_removeMethod (index : Nat) : Keeps (Extends entries) (removeMethod index) := by
  apply Keeps.modify
  intro cf h
  have hsub : (cf.methods.eraseIdx index).Sublist cf.methods := List.eraseIdx_sublist _ _
  exact h.withMethods ⟨hsub.length_le.trans h.wellFormed.methods.count,
    fun m hm => h.wellFormed.methods.items m (hsub.subset hm)⟩

/-! ## Attributes -/

theorem AttributesWellFormed.sublist {l l' : List AttributeInfo} (h : AttributesWellFormed l) (hs : l'.Sublist l) :
    AttributesWellFormed l' :=
  ⟨hs.length_le.trans h.count, fun a ha => h.items a (hs.subset ha)⟩

theorem AttributesWellFormed.append {l l' : List AttributeInfo} {a : AttributeInfo} (h : AttributesWellFormed l)
    (ha : a.WellFormed) (happend : listAppend l a = .ok l') : AttributesWellFormed l' := by
  unfold listAppend at happend
  split at happend
  · cases happend
  · rename_i hcount
    cases happend
    constructor
    · have := h.count
      simp only [List.length_append, List.length_singleton]
      omega
    · intro b hb
      rcases List.mem_append.mp hb with hb | hb
      · exact h.items b hb
      · rw [List.mem_singleton.mp hb]
        exact ha

theorem AttributesWellFormed.replaceCode {l : List AttributeInfo} {code : AttributeInfo} (pool : ConstantPool)
    (h : AttributesWellFormed l) (hc : code.WellFormed) : AttributesWellFormed (replaceCode pool code l) := by
  unfold Jni2Hook.replaceCode
  split
  · refine ⟨by simpa using h.count, fun a ha => ?_⟩
    rcases List.mem_or_eq_of_mem_set ha with ha | rfl
    · exact h.items a ha
    · exact hc
  · exact h

theorem takeBuffer_wellFormed {nameIndex : UInt16} {payload : Bytes} {a : AttributeInfo}
    (h : takeBuffer nameIndex payload = .ok a) : a.WellFormed := by
  unfold takeBuffer at h
  split at h
  · cases h
  · rename_i hlength
    cases h
    simp only [AttributeInfo.WellFormed, attributeInfoOf, UInt32.toNat_ofNat']
    omega

theorem codeEditorStore_wellFormed {editor : CodeEditor} {code stored : AttributeInfo}
    (h : codeEditorStore editor code = .ok stored) : stored.WellFormed := by
  unfold codeEditorStore at h
  cases hencode : instructionListEncode editor.instructions with
  | error e => simp [hencode, bind, Except.bind] at h
  | ok bytecode =>
    cases hattributes : storeAttributes editor with
    | error e => simp [hencode, hattributes, bind, Except.bind] at h
    | ok attributes =>
      simp only [hencode, hattributes, bind, Except.bind] at h
      exact takeBuffer_wellFormed h

theorem keeps_storeCode (index : Nat) (editor : CodeEditor) (code : AttributeInfo) :
    Keeps (Extends entries) (storeCode index editor code) := by
  unfold storeCode
  cases hstore : codeEditorStore editor code with
  | error e => exact Keeps.throw_bind _
  | ok stored =>
    have hstored := codeEditorStore_wellFormed hstore
    apply Keeps.pure_bind
    exact keeps_modifyMethod index fun cf m hm => hm.replaceCode cf.constantPool hstored

/-! ## The transforms -/

theorem findMethod_getElem? {cf : ClassFile} {name descriptor : Bytes} {index : Nat} {method : MemberInfo}
    (h : findMethod cf name descriptor = some (index, method)) : cf.methods[index]? = some method := by
  unfold findMethod at h
  cases hi : classFileFindMethod cf name descriptor with
  | none => simp [hi] at h
  | some i =>
    cases hm : cf.methods[i]? with
    | none => simp [hi, hm] at h
    | some m =>
      simp only [hi, hm, Option.bind_eq_bind, Option.bind_some, Option.pure_def, Option.some.injEq, Prod.mk.injEq] at h
      rw [← h.1, ← h.2]
      exact hm

theorem findMethod_mem {cf : ClassFile} {name descriptor : Bytes} {index : Nat} {method : MemberInfo}
    (h : findMethod cf name descriptor = some (index, method)) : method ∈ cf.methods :=
  List.mem_of_getElem? (findMethod_getElem? h)

theorem Extends.method (h : Extends entries cf) {name descriptor : Bytes} {index : Nat} {method : MemberInfo}
    (hfind : findMethod cf name descriptor = some (index, method)) : AttributesWellFormed method.attributes :=
  h.wellFormed.methods.items method (findMethod_mem hfind)

theorem replaceableMethod_ok {name descriptor copyName : Bytes} {found : Nat × MemberInfo}
    (h : replaceableMethod cf name descriptor copyName = .ok found) :
    findMethod cf name descriptor = some (found.1, found.2) := by
  unfold replaceableMethod at h
  split at h
  · cases h
  split at h
  · cases h
  split at h
  · cases h
  rename_i index method hfind
  have hfound : (index, method) = found := by
    repeat' split at h
    all_goals cases h
    rfl
  rw [hfind, ← hfound]

theorem keeps_makeNative (name descriptor copyName : Bytes) :
    Keeps (Extends entries) (makeNative name descriptor copyName) := by
  apply keeps_lookup_bind
  intro cf found h hfound
  have hmethod := h.method (replaceableMethod_ok hfound)
  refine (keeps_withCause (keeps_internUtf8 copyName)).bind fun copyNameIndex => ?_
  refine Keeps.bind (keeps_appendMethod ?_) fun _ => keeps_modifyMethod found.1 fun cf m hm => ?_
  · exact hmethod
  · exact hm.sublist List.eraseP_sublist

theorem keeps_restore (name descriptor copyName : Bytes) :
    Keeps (Extends entries) (restore name descriptor copyName) := by
  apply Keeps.get_bind
  intro cf h
  suffices hkeeps : Keeps (Extends entries) _ from hkeeps cf h
  split
  · rename_i copyIndex copy index method hcopy hfind
    split
    · exact Keeps.throw _
    · rename_i code hcode
      have hcodeWf : code.WellFormed := (h.method hcopy).items code (List.mem_of_find?_eq_some hcode)
      cases happend : listAppend method.attributes code with
      | error e => exact Keeps.throw_bind _
      | ok restored =>
        have hrestored := (h.method hfind).append hcodeWf happend
        apply Keeps.pure_bind
        exact (keeps_modifyMethod index fun _ _ _ => hrestored).bind fun _ => keeps_removeMethod copyIndex
  · exact Keeps.throw _

theorem keeps_insertAndStore (index : Nat) (editor : CodeEditor) (offset : Nat) (nodes : List Instruction)
    (extraStack : UInt16) (code : AttributeInfo) : Keeps (Extends entries) (do
      let edited ← insertNodesAt editor offset nodes extraStack
      storeCode index edited code) :=
  (keeps_insertNodesAt editor offset nodes extraStack).bind fun edited => keeps_storeCode index edited code

theorem keeps_insertStaticCall (name descriptor : Bytes) (atOffset : Nat) (owner callee : Bytes) (argument : Int)
    (forwardArguments : Bool) : Keeps (Extends entries)
      (insertStaticCall name descriptor atOffset owner callee argument forwardArguments) := by
  unfold insertStaticCall
  dsimp only
  split
  · exact Keeps.throw_bind _
  refine (keeps_lookup _).bind fun found => ?_
  refine (keeps_withCause (keeps_internClass owner)).bind fun ownerIndex => ?_
  refine (keeps_loadCode _).bind fun loaded => (keeps_lookup _).bind fun offset => ?_
  split
  · exact Keeps.throw _
  split
  · exact Keeps.throw _
  refine (keeps_withCause (keeps_internMethodref _ _ _)).bind fun methodref => ?_
  exact keeps_insertAndStore _ _ _ _ _ _

theorem keeps_guardedValue (returnType : Bytes) (ownerIndex : UInt16) (valueCallee : Option Bytes) (argument : Int) :
    Keeps (Extends entries) (guardedValue returnType ownerIndex valueCallee argument) := by
  unfold guardedValue
  refine Keeps.ite (Keeps.pure _) ?_
  cases valueCallee with
  | none => exact Keeps.pure _
  | some callee =>
    cases valueLetters returnType 3 with
    | none => exact Keeps.throw _
    | some letters =>
      refine (keeps_withCause (keeps_internMethodref _ _ _)).bind fun valueRef => ?_
      refine Keeps.ite (Keeps.ite (Keeps.throw _) (Keeps.ite (Keeps.throw _) ?_)) (Keeps.pure _)
      exact (keeps_withCause (keeps_internClass _)).bind fun _ => Keeps.pure _

theorem keeps_addFrame (editor : CodeEditor) (frame : StackMapFrame) :
    Keeps (Extends entries) (addFrame editor frame) := by
  unfold addFrame
  refine (keeps_liftCause _).bind fun frames => ?_
  split
  · exact Keeps.pure _
  · exact (keeps_withCause (keeps_internUtf8 _)).bind fun _ => Keeps.pure _

theorem keeps_parameterType (brackets element : Bytes) (isClass : Bool) :
    Keeps (Extends entries) (parameterType brackets element isClass) := by
  unfold parameterType
  refine Keeps.ite (Keeps.ite (Keeps.throw _) ?_) ?_
  · exact (keeps_internClass _).bind fun _ => Keeps.pure _
  · split
    · exact Keeps.pure _
    · exact Keeps.throw _

theorem keeps_entryFrameLoop (fuel : Nat) (descriptor : Bytes) (found : List VerificationType) :
    Keeps (Extends entries) (entryFrameLoop fuel descriptor found) := by
  induction fuel generalizing descriptor found with
  | zero => exact Keeps.throw _
  | succ fuel ih =>
    unfold entryFrameLoop
    split
    · exact Keeps.throw _
    · exact Keeps.pure _
    · refine Keeps.ite (Keeps.throw _) ?_
      split
      · exact Keeps.throw _
      · split
        · exact Keeps.throw _
        · exact (keeps_parameterType _ _ _).bind fun type => ih _ _

theorem keeps_buildEntryFrame (descriptor : Bytes) (isStatic : Bool) (offset : Int) :
    Keeps (Extends entries) (buildEntryFrame descriptor isStatic offset) :=
  Keeps.get.bind fun _ => (keeps_entryFrameLoop _ _ _).bind fun _ => Keeps.pure _

theorem keeps_insertGuard (index : Nat) (code : AttributeInfo) (editor : CodeEditor) (descriptor : Bytes)
    (isStatic : Bool) (guard value : List Instruction) (returns : UInt8) (forwarded : UInt16) :
    Keeps (Extends entries) (insertGuard index code editor descriptor isStatic guard value returns forwarded) := by
  unfold insertGuard
  refine Keeps.ite (Keeps.throw_bind _) ?_
  refine (keeps_insertNodesAt _ _ _ _).bind fun edited => ?_
  split
  · exact Keeps.throw _
  · refine (keeps_withCause (keeps_buildEntryFrame _ _ _)).bind fun frame => ?_
    exact (keeps_addFrame _ _).bind fun framed => keeps_storeCode _ _ _

theorem keeps_insertGuardedCall (name descriptor owner callee : Bytes) (valueCallee : Option Bytes) (argument : Int) :
    Keeps (Extends entries) (insertGuardedCall name descriptor owner callee valueCallee argument) := by
  unfold insertGuardedCall
  dsimp only
  split
  · exact Keeps.throw_bind _
  refine (keeps_lookup _).bind fun found => ?_
  refine (keeps_withCause (keeps_internClass owner)).bind fun ownerIndex => ?_
  refine (keeps_loadCode _).bind fun loaded => ?_
  split
  · exact Keeps.throw _
  split
  · exact Keeps.throw _
  refine (keeps_withCause (keeps_internMethodref _ _ _)).bind fun methodref => ?_
  exact (keeps_guardedValue _ _ _ _).bind fun value => keeps_insertGuard _ _ _ _ _ _ _ _ _

theorem keeps_insertCall (name descriptor : Bytes) (atOffset : Nat) (hookName : Bytes) :
    Keeps (Extends entries) (insertCall name descriptor atOffset hookName) := by
  unfold insertCall
  refine (keeps_lookup _).bind fun found => ?_
  refine (keeps_withCause (keeps_internUtf8 hookName)).bind fun hookNameIndex => ?_
  refine (keeps_withCause (keeps_internUtf8 _)).bind fun voidIndex => ?_
  refine Keeps.get.bind fun cf => (keeps_withCause (keeps_internMethodref _ _ _)).bind fun methodref => ?_
  have hhook : AttributesWellFormed (hookMethod (hasFlag found.2.accessFlags Acc.static_) hookNameIndex
    voidIndex).attributes :=
    ⟨by simp [hookMethod, classfileMaxCount], fun a ha => by simp [hookMethod] at ha⟩
  refine (keeps_appendMethod hhook).bind fun _ => Keeps.get.bind fun cf' => ?_
  refine Keeps.tryCatch ?_ fun e => (keeps_removeMethod _).bind fun _ => Keeps.throw e
  unfold insertHookCall
  exact (keeps_loadCode _).bind fun loaded => (keeps_lookup _).bind fun offset => keeps_insertAndStore _ _ _ _ _ _

end Extends

/-! ## Sequences of calls -/

/-- A call of one of the five transforms, with any arguments. -/
inductive TransformCall
  | makeNative (name descriptor copyName : Option Bytes)
  | restore (name descriptor copyName : Option Bytes)
  | insertCall (name descriptor : Option Bytes) (atOffset : UInt32) (hookName : Option Bytes)
  | insertStaticCall (name descriptor : Option Bytes) (atOffset : UInt32) (owner callee : Option Bytes) (argument : Int)
      (forwardArguments : Bool)
  | insertGuardedCall (name descriptor owner callee valueCallee : Option Bytes) (argument : Int)

def TransformCall.run : TransformCall → Transform Unit
  | .makeNative name descriptor copyName => classTransformMakeNative name descriptor copyName
  | .restore name descriptor copyName => classTransformRestore name descriptor copyName
  | .insertCall name descriptor atOffset hookName => classTransformInsertCall name descriptor atOffset hookName
  | .insertStaticCall name descriptor atOffset owner callee argument forwardArguments =>
    classTransformInsertStaticCall name descriptor atOffset owner callee argument forwardArguments
  | .insertGuardedCall name descriptor owner callee valueCallee argument =>
    classTransformInsertGuardedCall name descriptor owner callee valueCallee argument

/-- The tree a call leaves behind, whether it succeeds or not. -/
def transformStep (cf : ClassFile) (call : TransformCall) : ClassFile := endState call.run cf

theorem keeps_transformCall (entries : List CpInfo) (call : TransformCall) : Keeps (Extends entries) call.run := by
  cases call with
  | makeNative name descriptor copyName =>
    simp only [TransformCall.run, classTransformMakeNative]
    split
    · exact keeps_makeNative _ _ _
    · exact Keeps.throw _
  | restore name descriptor copyName =>
    simp only [TransformCall.run, classTransformRestore]
    split
    · exact keeps_restore _ _ _
    · exact Keeps.throw _
  | insertCall name descriptor atOffset hookName =>
    simp only [TransformCall.run, classTransformInsertCall]
    split
    · exact keeps_insertCall _ _ _ _
    · exact Keeps.throw _
  | insertStaticCall name descriptor atOffset owner callee argument forwardArguments =>
    simp only [TransformCall.run, classTransformInsertStaticCall]
    split
    · exact keeps_insertStaticCall _ _ _ _ _ _ _
    · exact Keeps.throw _
  | insertGuardedCall name descriptor owner callee valueCallee argument =>
    simp only [TransformCall.run, classTransformInsertGuardedCall]
    split
    · exact keeps_insertGuardedCall _ _ _ _ _ _
    · exact Keeps.throw _

/-- A parsed tree stays well formed through any sequence of calls, and its constants stay where they are. -/
theorem extends_run {cf : ClassFile} (h : cf.WellFormed) (calls : List TransformCall) :
    Extends cf.constantPool.entries (runEvents transformStep cf calls) := by
  have hstep : ∀ cf' call, Extends cf.constantPool.entries cf' → True →
      Extends cf.constantPool.entries (transformStep cf' call) :=
    fun _ call hcf' _ => (keeps_transformCall _ call).endState hcf'
  exact invariant_run hstep ⟨h, List.prefix_refl _⟩ (AllMeet.of_forall (fun _ _ => trivial) _ _)

end Jni2Hook
