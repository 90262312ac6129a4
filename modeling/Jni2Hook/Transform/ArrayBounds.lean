import Jni2Hook.Lib.Program
import Jni2Hook.Transform.ClassTransform

/-!
# Transforms that stay within their arrays

An error of a transform is a status of the source, or stands for a write or a copy past an array. All steps of the
transforms but two steps of `class_transform_insert_guarded_call` end with a status.

* `StaysWithin.of_bind`: a sequence that does not end with the status of its first step has come to its second.
* `within_makeNative`, `within_restore`, `within_insertStaticCall`, `within_insertCall`: four of the transforms.
-/

namespace Jni2Hook

open Lib

/-! ## Steps that stay within their arrays -/

/-- The transform may fail, but it does not run past an array. -/
def StaysWithin {α : Type} (x : Transform α) : Prop := FailsWith (· ≠ .overrun) x

section Steps

variable {α : Type}

theorem StaysWithin.of_bind {β : Type} {x : Transform α} {f : α → Transform β} {cf : ClassFile}
    {r : EStateM.Result TransformStatus ClassFile β} (hx : StaysWithin x) (h : (x >>= f) cf = r)
    (hr : ∀ e tree, r = .error e tree → e = .overrun) : ∃ a tree, x cf = .ok a tree ∧ f a tree = r :=
  FailsWith.of_bind hx h fun e tree he hne => hne (hr e tree he)

theorem overrun_of_eq {tree : ClassFile} (e : TransformStatus) (tree' : ClassFile)
    (h : (.error .overrun tree : EStateM.Result TransformStatus ClassFile α) = .error e tree') : e = .overrun := by
  cases h
  rfl

theorem StaysWithin.ne_overrun {x : Transform α} {cf tree : ClassFile} (hx : StaysWithin x) :
    x cf ≠ .error .overrun tree := fun h => FailsWith.of_error hx h rfl

theorem within_throw {e : TransformStatus} (h : e ≠ .overrun) : StaysWithin (throw e : Transform α) := FailsWith.throw h

theorem within_withCause (x : Edit α) : StaysWithin (withCause x) := by
  intro cf
  unfold After withCause
  cases x cf with
  | ok a cf' => trivial
  | error e cf' => exact TransformStatus.noConfusion

theorem within_liftCause (x : Except ClassfileStatus α) : StaysWithin (liftCause x) := by
  cases x with
  | ok a => exact FailsWith.pure a
  | error e => exact within_throw TransformStatus.noConfusion

/-- The guards of the transforms do not run past an array. -/
theorem within_lookup {f : ClassFile → Except TransformStatus α} (h : ∀ cf, f cf ≠ .error .overrun) :
    StaysWithin (lookup f) := by
  refine FailsWith.get.bind fun cf => ?_
  cases hf : f cf with
  | ok a => exact FailsWith.pure a
  | error e => exact within_throw fun he => h cf (by rw [hf, he])

theorem within_loadCode (index : Nat) : StaysWithin (loadCode index) := by
  refine FailsWith.get.bind fun cf => ?_
  cases codeOf cf index with
  | none => exact within_throw TransformStatus.noConfusion
  | some code => exact (within_liftCause _).bind fun _ => FailsWith.pure _

theorem within_insertNodesAt (editor : CodeEditor) (offset : Nat) (nodes : List Instruction) (extraStack : UInt16) :
    StaysWithin (insertNodesAt editor offset nodes extraStack) := by
  unfold insertNodesAt
  split
  · exact FailsWith.pure _
  · exact within_throw TransformStatus.noConfusion
  · exact within_throw TransformStatus.noConfusion

theorem within_modifyMethod (index : Nat) (f : ClassFile → MemberInfo → MemberInfo) :
    StaysWithin (modifyMethod index f) := fun _ => trivial

theorem within_removeMethod (index : Nat) : StaysWithin (removeMethod index) := fun _ => trivial

theorem within_storeCode (index : Nat) (editor : CodeEditor) (code : AttributeInfo) :
    StaysWithin (storeCode index editor code) :=
  (within_liftCause _).bind fun _ => within_modifyMethod _ _

theorem within_insertAndStore (index : Nat) (editor : CodeEditor) (offset : Nat) (nodes : List Instruction)
    (extraStack : UInt16) (code : AttributeInfo) : StaysWithin (do
      let edited ← insertNodesAt editor offset nodes extraStack
      storeCode index edited code) :=
  (within_insertNodesAt editor offset nodes extraStack).bind fun edited => within_storeCode index edited code

theorem within_appendMethod (method : MemberInfo) : StaysWithin (appendMethod method) := by
  refine FailsWith.get.bind fun cf => ?_
  cases listAppend cf.methods method with
  | error e => exact within_throw TransformStatus.noConfusion
  | ok methods => exact fun _ => trivial

theorem within_addFrame (editor : CodeEditor) (frame : StackMapFrame) : StaysWithin (addFrame editor frame) := by
  refine (within_liftCause _).bind fun frames => ?_
  cases editor.stackMap with
  | some table => exact FailsWith.pure _
  | none => exact (within_withCause _).bind fun _ => FailsWith.pure _

end Steps

/-! ## The guards -/

section Guards

variable (cf : ClassFile) (name descriptor : Bytes)

theorem replaceableMethod_ne (copyName : Bytes) : replaceableMethod cf name descriptor copyName ≠ .error .overrun := by
  unfold replaceableMethod
  repeat' split
  all_goals exact nofun

theorem insertableMethod_ne : insertableMethod cf name descriptor ≠ .error .overrun := by
  unfold insertableMethod
  repeat' split
  all_goals exact nofun

theorem guardableMethod_ne : guardableMethod cf name descriptor ≠ .error .overrun := by
  unfold guardableMethod
  repeat' split
  all_goals exact nofun

theorem constructorOffset_ne (editor : CodeEditor) (isConstructor : Bool) (offset : Nat) :
    constructorOffset cf editor isConstructor offset ≠ .error .overrun := by
  unfold constructorOffset
  repeat' split
  all_goals exact nofun

end Guards

/-! ## The other transforms -/

theorem within_makeNative (name descriptor copyName : Bytes) : StaysWithin (makeNative name descriptor copyName) := by
  refine (within_lookup fun cf => replaceableMethod_ne cf _ _ _).bind fun found => ?_
  refine (within_withCause _).bind fun copyNameIndex => ?_
  exact (within_appendMethod _).bind fun _ => within_modifyMethod _ _

theorem within_restore (name descriptor copyName : Bytes) : StaysWithin (restore name descriptor copyName) := by
  refine FailsWith.get.bind fun cf => ?_
  split
  · split
    · exact within_throw TransformStatus.noConfusion
    · refine (within_liftCause _).bind fun restored => ?_
      exact (within_modifyMethod _ _).bind fun _ => within_removeMethod _
  · exact within_throw TransformStatus.noConfusion

theorem within_insertStaticCall (name descriptor : Bytes) (atOffset : Nat) (owner callee : Bytes) (argument : Int)
    (forwardArguments : Bool) :
    StaysWithin (insertStaticCall name descriptor atOffset owner callee argument forwardArguments) := by
  refine FailsWith.ite (FailsWith.throw_bind TransformStatus.noConfusion) ?_
  refine (within_lookup fun cf => insertableMethod_ne cf _ _).bind fun found => ?_
  refine (within_withCause _).bind fun ownerIndex => (within_loadCode _).bind fun loaded => ?_
  refine (within_lookup fun cf => constructorOffset_ne cf _ _ _).bind fun offset => ?_
  split
  · exact within_throw TransformStatus.noConfusion
  dsimp only
  split
  · exact within_throw TransformStatus.noConfusion
  refine (within_withCause _).bind fun methodref => ?_
  exact within_insertAndStore _ _ _ _ _ _

theorem within_insertCall (name descriptor : Bytes) (atOffset : Nat) (hookName : Bytes) :
    StaysWithin (insertCall name descriptor atOffset hookName) := by
  refine (within_lookup fun cf => ?_).bind fun found => ?_
  · split
    · exact nofun
    split
    · exact nofun
    exact insertableMethod_ne cf name descriptor
  refine (within_withCause _).bind fun hookNameIndex => (within_withCause _).bind fun voidIndex => ?_
  refine FailsWith.get.bind fun cf => (within_withCause _).bind fun methodref => ?_
  refine (within_appendMethod _).bind fun _ => FailsWith.get.bind fun cf' => ?_
  refine FailsWith.tryCatch ?_ fun e he => (within_removeMethod _).bind fun _ => within_throw he
  refine (within_loadCode _).bind fun loaded => (within_lookup fun cf =>
    constructorOffset_ne cf _ _ _).bind fun offset => ?_
  exact within_insertAndStore _ _ _ _ _ _

end Jni2Hook
