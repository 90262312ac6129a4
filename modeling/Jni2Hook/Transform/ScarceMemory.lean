import Jni2Hook.Transform.Preservation

/-!
# Transforms when memory is scarce

The five transforms of `class_transform.c` with an allocator that may refuse. Every step that allocates asks for the
next answer of the allocator; a step that builds its result outside of the tree asks once, since it fails as a whole.

* `Scarce.*`: the transforms with these steps, under the names they have without them.
* `embeds_transform`: with an allocator that never refuses they are the transforms of `ClassTransform`.
* `failed_transform_appends`: a transform that fails, at whichever step, leaves the class as it was but for constants
  that it has appended.
-/

namespace Jni2Hook

open Lib

/-! ## The allocator -/

/-- The answer of the allocator to a step. The trace of a constructor does not stop when it cannot store a state: it
loses the paths through it, and may answer anything. -/
inductive AllocAnswer
  | granted
  | denied
  | cutShort (result : ConstructorInitResult)
  deriving DecidableEq, Repr

/-- A tree and the answers of the allocator to come; behind the last one it grants everything. -/
structure ScarceTree where
  tree : ClassFile
  answers : List AllocAnswer
  deriving DecidableEq, Repr

namespace Scarce

abbrev Edit := EStateM ClassfileStatus ScarceTree

abbrev Transform := EStateM TransformStatus ScarceTree

def nextAnswer {ε : Type} : EStateM ε ScarceTree AllocAnswer := fun s =>
  match s.answers with
  | [] => .ok .granted s
  | answer :: rest => .ok answer { s with answers := rest }

/-- A step that allocates. -/
def allocate : Edit Unit := do
  match ← nextAnswer with
  | .granted => return ()
  | _ => throw .outOfMemory

/-- A step on the tree. -/
def onTree {ε α : Type} (x : EStateM ε ClassFile α) : EStateM ε ScarceTree α := fun s =>
  match x s.tree with
  | .ok a cf => .ok a { s with tree := cf }
  | .error e cf => .error e { s with tree := cf }

/-- `fail`. -/
def withCause {α : Type} (x : Edit α) : Transform α := fun s =>
  match x s with
  | .ok a t => .ok a t
  | .error e t => .error (.classfile e) t

/-- A step that allocates for its own result and then touches the tree. -/
def allocating {α : Type} (x : Jni2Hook.Transform α) : Transform α := do
  withCause allocate
  onTree x

/-! ## Interning -/

def internConstant (entry : CpInfo) : Edit UInt16 := do
  match constantPoolFind (← get).tree.constantPool (· == entry) with
  | some index => return index
  | none => do
    allocate
    onTree (appendConstant entry)

def classFileInternUtf8 (text : Bytes) : Edit UInt16 :=
  if text.length > classfileMaxCount then throw .limitExceeded else internConstant (.utf8 text)

def classFileInternClass (name : Bytes) : Edit UInt16 := do
  let nameIndex ← classFileInternUtf8 name
  internConstant (.classInfo nameIndex)

def classFileInternNameAndType (name descriptor : Bytes) : Edit UInt16 := do
  let nameIndex ← classFileInternUtf8 name
  let descriptorIndex ← classFileInternUtf8 descriptor
  internConstant (.nameAndType nameIndex descriptorIndex)

def classFileInternMethodref (classIndex : UInt16) (name descriptor : Bytes) : Edit UInt16 := do
  let natIndex ← classFileInternNameAndType name descriptor
  internConstant (.methodref classIndex natIndex)

/-! ## The entry frame -/

def parameterType (brackets element : Bytes) (isClass : Bool) : Edit VerificationType := do
  if brackets.isEmpty = false ∨ isClass = true then
    let name := if brackets.isEmpty then (element.drop 1).dropLast else brackets ++ element
    if name.length ≥ 512 then throw .unsupported
    else return .object (← classFileInternClass name)
  else match element.head?.bind primitiveType with
    | some type => return type
    | none => throw .unsupported

def entryFrameLoop : Nat → Bytes → List VerificationType → Edit (List VerificationType)
  | 0, _, _ => throw .unsupported
  | fuel + 1, descriptor, found =>
    match descriptor with
    | [] => throw .unsupported
    | 0x29 :: _ => return found
    | _ =>
      if found.length = 256 then throw .unsupported
      else
        let brackets := descriptor.takeWhile (· == 0x5B)
        match descriptor.dropWhile (· == 0x5B) with
        | [] => throw .unsupported
        | letter :: rest =>
          match afterType letter rest with
          | none => throw .unsupported
          | some after => do
            let named := (letter :: rest).take (1 + rest.length - after.length)
            let type ← parameterType brackets named (letter = 0x4C)
            entryFrameLoop fuel after (found ++ [type])

/-- `build_entry_frame`: the locals are copied last. -/
def buildEntryFrame (descriptor : Bytes) (isStatic : Bool) (offset : Int) : Edit StackMapFrame := do
  let s ← get
  let receiver := if isStatic then [] else [VerificationType.object s.tree.thisClass]
  let locals ← entryFrameLoop descriptor.length (descriptor.drop 1) receiver
  allocate
  return ⟨255, offset, .full locals []⟩

/-! ## Replacing a method -/

def makeNative (name descriptor copyName : Bytes) : Transform Unit := do
  let (index, method) ← onTree (lookup fun cf => replaceableMethod cf name descriptor copyName)
  let copyNameIndex ← withCause (classFileInternUtf8 copyName)
  -- `member_info_copy`
  withCause allocate
  allocating (appendMethod { method with nameIndex := copyNameIndex, accessFlags := copyFlags method.accessFlags })
  onTree (modifyMethod index fun cf original =>
    { memberInfoSetNative original true with
      attributes := attributeListRemoveNamed original.attributes cf.constantPool (text "Code") })

/-- Takes the attribute that was just appended to a method away again. -/
def removeRestored (index restoredIndex : Nat) : Transform Unit :=
  onTree (modifyMethod index fun _ original =>
    { original with attributes := original.attributes.eraseIdx restoredIndex })

/-- `class_transform_restore`: the attribute is appended empty and filled behind that. -/
def restore (name descriptor copyName : Bytes) : Transform Unit := do
  let cf := (← get).tree
  match findMethod cf copyName descriptor, findMethod cf name descriptor with
  | some (copyIndex, copy), some (index, method) =>
    match findCode cf copy with
    | none => throw .noCode
    | some _ => do
      let appended ← allocating (liftCause (listAppend method.attributes ⟨0, 0, []⟩))
      onTree (modifyMethod index fun _ original => { original with attributes := appended })
      let restoredIndex := method.attributes.length
      match codeOf (← get).tree copyIndex with
      | none => do
        removeRestored index restoredIndex
        throw .noCode
      | some code => do
        tryCatch (withCause allocate) fun e => do
          removeRestored index restoredIndex
          throw e
        onTree (modifyMethod index fun _ original =>
          memberInfoSetNative { original with attributes := original.attributes.set restoredIndex code } false)
        onTree (removeMethod copyIndex)
  | _, _ => throw .methodNotFound

/-! ## Inserting calls -/

/-- `constructor_init_offset` and what the transforms make of it. -/
def constructorOffset (editor : CodeEditor) (method : MemberInfo) (offset : Nat) : Transform Nat := do
  let cf := (← get).tree
  if isInstanceInitializer cf method then
    let safe (result : ConstructorInitResult) : Transform Nat :=
      match result with
      | .found safeOffset => return if offset < safeOffset then safeOffset else offset
      | .ambiguous => throw .ambiguousInit
      | .missing => throw .initializer
    match ← nextAnswer with
    | .granted => safe (constructorInitOffset cf editor)
    | .denied => safe .missing
    | .cutShort result => safe result
  else return offset

def loadCode (index : Nat) : Transform (AttributeInfo × CodeEditor) := allocating (Jni2Hook.loadCode index)

def storeCode (index : Nat) (editor : CodeEditor) (code : AttributeInfo) : Transform Unit :=
  allocating (Jni2Hook.storeCode index editor code)

def insertNodesAt (editor : CodeEditor) (offset : Nat) (nodes : List Instruction) (extraStack : UInt16) :
    Transform CodeEditor := allocating (Jni2Hook.insertNodesAt editor offset nodes extraStack)

def insertStaticCall (name descriptor : Bytes) (atOffset : Nat) (owner callee : Bytes) (argument : Int)
    (forwardArguments : Bool) : Transform Unit := do
  if argumentFits argument = false then throw .badOffset
  let (index, method) ← onTree (lookup fun cf => insertableMethod cf name descriptor)
  let ownerIndex ← withCause (classFileInternClass owner)
  let (code, editor) ← loadCode index
  let offset ← constructorOffset editor method atOffset
  match describeParameters descriptor (hasFlag method.accessFlags Acc.static_) with
  | none => throw .methodNotFound
  | some described =>
    let parameters := if forwardArguments then described else []
    match buildCalleeDescriptor parameters 0x56 with
    | none => throw .methodNotFound
    | some calleeDescriptor => do
      let methodref ← withCause (classFileInternMethodref ownerIndex callee calleeDescriptor)
      let edited ← insertNodesAt editor offset (forwardNodes argument parameters methodref) (forwardStack parameters)
      storeCode index edited code

def guardedValue (returnType : Bytes) (ownerIndex : UInt16) (valueCallee : Option Bytes) (argument : Int) :
    Transform (List Instruction) :=
  let returns := returnType.headD 0
  let reference := returns = 0x4C ∨ returns = 0x5B
  if returns = 0x56 then return []
  else match valueCallee with
  | none => return [newNode (defaultOpcodeFor returns) .none]
  | some callee =>
    match valueLetters returnType 3 with
    | none => throw (.classfile .unsupported)
    | some letters => do
      let valueRef ← withCause (classFileInternMethodref ownerIndex callee
        (if reference then text "(I)Ljava/lang/Object;" else text "(I)" ++ letters))
      let call := [newNode Opc.sipush (.immediate argument), newNode Opc.invokestatic (.cpIndex valueRef)]
      if reference then
        if returnType.length ≥ 512 then throw (.classfile .unsupported)
        else if returns = 0x4C ∧ returnType.length < 2 then throw .overrun
        else do
          let castIndex ← withCause (classFileInternClass
            (if returns = 0x4C then (returnType.drop 1).take (returnType.length - 2) else returnType))
          return call ++ [newNode Opc.checkcast (.cpIndex castIndex)]
      else return call

def addFrame (editor : CodeEditor) (frame : StackMapFrame) : Transform CodeEditor := do
  let frames ← allocating (liftCause (insertFrame (tableEntries editor.stackMap) frame))
  match editor.stackMap with
  | some table => return { editor with stackMap := some { table with entries := frames } }
  | none => do
    let nameIndex ← withCause (classFileInternUtf8 (text "StackMapTable"))
    return { editor with stackMap := some ⟨nameIndex, frames⟩ }

def insertGuard (index : Nat) (code : AttributeInfo) (editor : CodeEditor) (descriptor : Bytes) (isStatic : Bool)
    (guard value : List Instruction) (returns : UInt8) (forwarded : UInt16) : Transform Unit := do
  let nodes := guard ++ newNode Opc.ifeq (.branch 0) :: (value ++ [newNode (returnOpcodeFor returns) .none])
  if nodes.length > nodeCapacity then throw .overrun
  let edited ← insertNodesAt editor 0 nodes (if returns ≠ 0x56 ∧ forwarded < 2 then 2 else forwarded)
  match edited.instructions.items[nodes.length]? with
  | none => throw (.classfile .unsupported)
  | some body => do
    let bodyOffset := wrapI4 body.offset
    let frame ← withCause (buildEntryFrame descriptor isStatic bodyOffset)
    let framed ← addFrame (patchBranch edited guard.length bodyOffset) frame
    storeCode index framed code

def insertGuardedCall (name descriptor owner callee : Bytes) (valueCallee : Option Bytes) (argument : Int) :
    Transform Unit := do
  if argumentFits argument = false then throw .badOffset
  let (index, method, returnType) ← onTree (lookup fun cf => guardableMethod cf name descriptor)
  let isStatic := hasFlag method.accessFlags Acc.static_
  let ownerIndex ← withCause (classFileInternClass owner)
  let (code, editor) ← loadCode index
  match describeParameters descriptor isStatic with
  | none => throw .methodNotFound
  | some parameters =>
    match buildCalleeDescriptor parameters 0x5A with
    | none => throw .methodNotFound
    | some calleeDescriptor => do
      let methodref ← withCause (classFileInternMethodref ownerIndex callee calleeDescriptor)
      let value ← guardedValue returnType ownerIndex valueCallee argument
      insertGuard index code editor descriptor isStatic (forwardNodes argument parameters methodref) value
        (returnType.headD 0) (forwardStack parameters)

def insertHookCall (index : Nat) (method : MemberInfo) (atOffset : Nat) (methodref : UInt16) : Transform Unit := do
  let (code, editor) ← loadCode index
  let offset ← constructorOffset editor method atOffset
  let edited ← insertNodesAt editor offset (hookNodes (hasFlag method.accessFlags Acc.static_) methodref) 1
  storeCode index edited code

def insertCall (name descriptor : Bytes) (atOffset : Nat) (hookName : Bytes) : Transform Unit := do
  let (index, method) ← onTree (lookup fun cf =>
    if hasFlag cf.accessFlags Acc.interface then .error .interface_
    else if (findMethod cf hookName (text "()V")).isSome then .error .nameInUse
    else insertableMethod cf name descriptor)
  let hookNameIndex ← withCause (classFileInternUtf8 hookName)
  let voidIndex ← withCause (classFileInternUtf8 (text "()V"))
  let methodref ← withCause (classFileInternMethodref (← get).tree.thisClass hookName (text "()V"))
  allocating (appendMethod (hookMethod (hasFlag method.accessFlags Acc.static_) hookNameIndex voidIndex))
  let hookIndex := (← get).tree.methods.length - 1
  tryCatch (insertHookCall index method atOffset methodref) fun e => do
    onTree (removeMethod hookIndex)
    throw e

/-- A call of one of the five transforms. -/
def run : TransformCall → Transform Unit
  | .makeNative (some name) (some descriptor) (some copyName) => makeNative name descriptor copyName
  | .restore (some name) (some descriptor) (some copyName) => restore name descriptor copyName
  | .insertCall (some name) (some descriptor) atOffset (some hookName) =>
    insertCall name descriptor atOffset.toNat hookName
  | .insertStaticCall (some name) (some descriptor) atOffset (some owner) (some callee) argument forwardArguments =>
    insertStaticCall name descriptor atOffset.toNat owner callee argument forwardArguments
  | .insertGuardedCall (some name) (some descriptor) (some owner) (some callee) valueCallee argument =>
    insertGuardedCall name descriptor owner callee valueCallee argument
  | _ => throw .methodNotFound

end Scarce

/-! ## Trees with further constants -/

/-- The second tree is the first one with constants appended. -/
def Appends (s t : ScarceTree) : Prop :=
  ∃ added, t.tree = { s.tree with constantPool := ⟨s.tree.constantPool.entries ++ added⟩ }

theorem Appends.of_tree_eq {s t : ScarceTree} (h : t.tree = s.tree) : Appends s t := ⟨[], by simp [h]⟩

instance : Std.Refl Appends := ⟨fun _ => Appends.of_tree_eq rfl⟩

instance : IsTrans ScarceTree Appends where
  trans := by
    rintro s t u ⟨added, ht⟩ ⟨added', hu⟩
    exact ⟨added ++ added', by rw [hu, ht]; simp⟩

namespace Scarce

variable {ε α β : Type}

/-! ## Steps -/

@[simp] theorem after_onTree {x : EStateM ε ClassFile α} {s : ScarceTree} {Q : α → ScarceTree → Prop}
    {E : ε → ScarceTree → Prop} : After (onTree x) s Q E ↔
      After x s.tree (fun a cf => Q a { s with tree := cf }) fun e cf => E e { s with tree := cf } := by
  unfold After onTree
  cases x s.tree <;> rfl

@[simp] theorem after_withCause {x : Edit α} {s : ScarceTree} {Q : α → ScarceTree → Prop}
    {E : TransformStatus → ScarceTree → Prop} :
    After (withCause x) s Q E ↔ After x s Q fun e t => E (.classfile e) t := by
  unfold After withCause
  cases x s <;> rfl

/-- Asking the allocator leaves the tree as it is. -/
theorem after_nextAnswer (s : ScarceTree) :
    After (nextAnswer : EStateM ε ScarceTree AllocAnswer) s (fun _ t => t.tree = s.tree) fun _ _ => False := by
  unfold After nextAnswer
  cases s.answers <;> rfl

theorem after_allocate (s : ScarceTree) : After allocate s (fun _ t => t.tree = s.tree) fun _ t => t.tree = s.tree := by
  unfold allocate
  rw [after_bind]
  refine (after_nextAnswer s).mono (fun answer t ht => ?_) fun _ _ hno => hno.elim
  cases answer <;> exact ht

/-! ## Steps that append at most -/

theorem relates_nextAnswer : Relates Appends (nextAnswer : EStateM ε ScarceTree AllocAnswer) :=
  fun s => (after_nextAnswer s).mono (fun _ _ ht => Appends.of_tree_eq ht) fun _ _ hno => hno.elim

theorem relates_allocate : Relates Appends allocate :=
  fun s => (after_allocate s).mono (fun _ _ ht => Appends.of_tree_eq ht) fun _ _ ht => Appends.of_tree_eq ht

theorem relates_withCause {x : Edit α} (hx : Relates Appends x) : Relates Appends (withCause x) :=
  fun s => after_withCause.mpr (hx s)

/-- A step that leaves the tree as it is. -/
theorem relates_onTree {x : EStateM ε ClassFile α} (hx : Relates Eq x) : Relates Appends (onTree x) := by
  intro s
  rw [after_onTree]
  exact (hx s.tree).mono (fun _ _ h => Appends.of_tree_eq h.symm) fun _ _ h => Appends.of_tree_eq h.symm

theorem relates_lookup (f : ClassFile → Except TransformStatus α) : Relates Appends (onTree (lookup f)) := by
  refine relates_onTree (Relates.get_bind fun cf => ?_)
  cases f cf with
  | ok a => exact Relates.pure _
  | error e => exact Relates.throw _

theorem unchanged_liftCause (x : Except ClassfileStatus α) : Relates Eq (liftCause x) := by
  cases x with
  | ok a => exact Relates.pure _
  | error e => exact Relates.throw _

theorem unchanged_loadCode (index : Nat) : Relates Eq (Jni2Hook.loadCode index) := by
  refine Relates.get_bind fun cf => ?_
  cases codeOf cf index with
  | none => exact Relates.throw _
  | some code => exact (unchanged_liftCause _).bind fun editor => Relates.pure _

theorem unchanged_insertNodesAt (editor : CodeEditor) (offset : Nat) (nodes : List Instruction) (extraStack : UInt16) :
    Relates Eq (Jni2Hook.insertNodesAt editor offset nodes extraStack) := by
  unfold Jni2Hook.insertNodesAt
  split
  · exact Relates.pure _
  · exact Relates.throw _
  · exact Relates.throw _

theorem relates_allocating {x : Jni2Hook.Transform α} (hx : Relates Eq x) : Relates Appends (allocating x) :=
  (relates_withCause relates_allocate).bind fun _ => relates_onTree hx

theorem relates_loadCode (index : Nat) :
    Relates Appends (loadCode index) := relates_allocating (unchanged_loadCode index)

theorem relates_insertNodesAt (editor : CodeEditor) (offset : Nat) (nodes : List Instruction) (extraStack : UInt16) :
    Relates Appends (insertNodesAt editor offset nodes extraStack) :=
  relates_allocating (unchanged_insertNodesAt editor offset nodes extraStack)

theorem relates_appendConstant (entry : CpInfo) : Relates Appends (onTree (appendConstant entry)) := by
  intro s
  unfold appendConstant
  rw [after_onTree, after_bind, after_get]
  cases happend : constantPoolAppend s.tree.constantPool entry with
  | error e => exact Appends.of_tree_eq rfl
  | ok appended =>
    unfold constantPoolAppend at happend
    split at happend
    · cases happend
    · cases happend
      exact ⟨entry.withPadding, rfl⟩

theorem relates_internConstant (entry : CpInfo) : Relates Appends (internConstant entry) := by
  apply Relates.get_bind
  intro s
  split
  · exact Relates.pure _
  · exact relates_allocate.bind fun _ => relates_appendConstant entry

theorem relates_internUtf8 (text : Bytes) : Relates Appends (classFileInternUtf8 text) :=
  Relates.ite (fun _ => Relates.throw _) fun _ => relates_internConstant _

theorem relates_internClass (name : Bytes) : Relates Appends (classFileInternClass name) :=
  (relates_internUtf8 name).bind fun _ => relates_internConstant _

theorem relates_internNameAndType (name descriptor : Bytes) :
    Relates Appends (classFileInternNameAndType name descriptor) :=
  (relates_internUtf8 name).bind fun _ => (relates_internUtf8 descriptor).bind fun _ => relates_internConstant _

theorem relates_internMethodref (classIndex : UInt16) (name descriptor : Bytes) :
    Relates Appends (classFileInternMethodref classIndex name descriptor) :=
  (relates_internNameAndType name descriptor).bind fun _ => relates_internConstant _

theorem relates_constructorOffset (editor : CodeEditor) (method : MemberInfo) (offset : Nat) :
    Relates Appends (constructorOffset editor method offset) := by
  apply Relates.get_bind
  intro s
  refine Relates.ite (fun _ => relates_nextAnswer.bind fun answer => ?_) fun _ => Relates.pure _
  have hsafe : ∀ result : ConstructorInitResult, Relates Appends
      (match result with
        | .found safeOffset => return if offset < safeOffset then safeOffset else offset
        | .ambiguous => throw .ambiguousInit
        | .missing => throw .initializer : Transform Nat) := by
    intro result
    cases result with
    | found safeOffset => exact Relates.pure _
    | ambiguous => exact Relates.throw _
    | missing => exact Relates.throw _
  cases answer with
  | granted => exact hsafe _
  | denied => exact Relates.throw _
  | cutShort result => exact hsafe result

theorem relates_parameterType (brackets element : Bytes) (isClass : Bool) :
    Relates Appends (parameterType brackets element isClass) := by
  refine Relates.ite (fun _ => ?_) fun _ => ?_
  · exact Relates.ite (fun _ => Relates.throw _) fun _ => (relates_internClass _).bind fun _ => Relates.pure _
  · cases element.head?.bind primitiveType with
    | none => exact Relates.throw _
    | some type => exact Relates.pure _

theorem relates_entryFrameLoop (fuel : Nat) (descriptor : Bytes) (found : List VerificationType) :
    Relates Appends (entryFrameLoop fuel descriptor found) := by
  induction fuel generalizing descriptor found with
  | zero => exact Relates.throw _
  | succ fuel ih =>
    unfold entryFrameLoop
    split
    · exact Relates.throw _
    · exact Relates.pure _
    · refine Relates.ite (fun _ => Relates.throw _) fun _ => ?_
      split
      · exact Relates.throw _
      · split
        · exact Relates.throw _
        · exact (relates_parameterType _ _ _).bind fun type => ih _ _

theorem relates_buildEntryFrame (descriptor : Bytes) (isStatic : Bool) (offset : Int) :
    Relates Appends (buildEntryFrame descriptor isStatic offset) := by
  apply Relates.get_bind
  intro s
  exact (relates_entryFrameLoop _ _ _).bind fun locals => relates_allocate.bind fun _ => Relates.pure _

theorem relates_guardedValue (returnType : Bytes) (ownerIndex : UInt16) (valueCallee : Option Bytes) (argument : Int) :
    Relates Appends (guardedValue returnType ownerIndex valueCallee argument) := by
  refine Relates.ite (fun _ => Relates.pure _) fun _ => ?_
  cases valueCallee with
  | none => exact Relates.pure _
  | some callee =>
    dsimp only
    cases valueLetters returnType 3 with
    | none => exact Relates.throw _
    | some letters =>
      refine (relates_withCause (relates_internMethodref _ _ _)).bind fun valueRef => ?_
      refine Relates.ite (fun _ => ?_) fun _ => Relates.pure _
      refine Relates.ite (fun _ => Relates.throw _) fun _ => Relates.ite (fun _ => Relates.throw _) fun _ => ?_
      exact (relates_withCause (relates_internClass _)).bind fun castIndex => Relates.pure _

theorem relates_addFrame (editor : CodeEditor) (frame : StackMapFrame) : Relates Appends (addFrame editor frame) := by
  refine (relates_allocating (unchanged_liftCause _)).bind fun frames => ?_
  cases editor.stackMap with
  | some table => exact Relates.pure _
  | none => exact (relates_withCause (relates_internUtf8 _)).bind fun nameIndex => Relates.pure _

/-! ## Steps that change methods -/

theorem neverFails_modifyMethod (index : Nat) (f : ClassFile → MemberInfo → MemberInfo) :
    NeverFails (onTree (modifyMethod index f)) := fun _ => trivial

/-- What appending a method does to a tree. -/
theorem after_appendMethod (method : MemberInfo) (s : ScarceTree) : After (allocating (appendMethod method)) s
    (fun _ t => t.tree = { s.tree with methods := s.tree.methods ++ [method] }) (fun _ => Appends s) := by
  unfold allocating appendMethod
  rw [after_bind, after_withCause]
  refine (after_allocate s).mono (fun _ t ht => ?_) fun _ _ ht => Appends.of_tree_eq ht
  rw [after_onTree, after_bind, after_get, ht]
  cases happend : listAppend s.tree.methods method with
  | error e => exact Appends.of_tree_eq rfl
  | ok methods =>
    unfold listAppend at happend
    split at happend
    · cases happend
    · cases happend
      rfl

theorem failsWithin_appendMethod (method : MemberInfo) : FailsWithin Appends (allocating (appendMethod method)) :=
  fun s => (after_appendMethod method s).mono (fun _ _ _ => trivial) fun _ _ h => h

theorem failsWithin_storeCode (index : Nat) (editor : CodeEditor) (code : AttributeInfo) :
    FailsWithin Appends (storeCode index editor code) := by
  refine FailsWithin.bind (relates_withCause relates_allocate) fun _ s => ?_
  unfold Jni2Hook.storeCode
  rw [after_onTree, after_bind]
  cases codeEditorStore editor code with
  | error e => exact Appends.of_tree_eq rfl
  | ok stored => exact trivial

theorem failsWithin_insertHookCall (index : Nat) (method : MemberInfo) (atOffset : Nat) (methodref : UInt16) :
    FailsWithin Appends (insertHookCall index method atOffset methodref) := by
  refine FailsWithin.bind (relates_loadCode index) fun loaded => ?_
  refine FailsWithin.bind (relates_constructorOffset _ _ _) fun offset => ?_
  exact FailsWithin.bind (relates_insertNodesAt _ _ _ _) fun edited => failsWithin_storeCode _ _ _

/-- Removing the method that was appended last gives the tree it was appended to. -/
theorem appends_removed {s t u : ScarceTree} {method : MemberInfo}
    (hs : t.tree = { s.tree with methods := s.tree.methods ++ [method] }) (ht : Appends t u) :
    Appends s { u with tree := { u.tree with methods := u.tree.methods.eraseIdx (t.tree.methods.length - 1) } } := by
  obtain ⟨added, hu⟩ := ht
  refine ⟨added, ?_⟩
  dsimp only
  rw [hu, hs]
  simp [List.eraseIdx_append_of_length_le]

/-! ## The transforms -/

theorem failsWithin_makeNative (name descriptor copyName : Bytes) :
    FailsWithin Appends (makeNative name descriptor copyName) := by
  refine FailsWithin.bind (relates_lookup _) fun found => ?_
  refine FailsWithin.bind (relates_withCause (relates_internUtf8 _)) fun copyNameIndex => ?_
  refine FailsWithin.bind (relates_withCause relates_allocate) fun _ => ?_
  exact (failsWithin_appendMethod _).last fun _ => neverFails_modifyMethod _ _

theorem failsWithin_insertStaticCall (name descriptor : Bytes) (atOffset : Nat) (owner callee : Bytes) (argument : Int)
    (forwardArguments : Bool) :
    FailsWithin Appends (insertStaticCall name descriptor atOffset owner callee argument forwardArguments) := by
  refine FailsWithin.ite (fun _ => ?_) fun _ => ?_
  · exact (Relates.throw _).failsWithin
  · refine FailsWithin.bind (relates_lookup _) fun found => ?_
    refine FailsWithin.bind (relates_withCause (relates_internClass _)) fun ownerIndex => ?_
    refine FailsWithin.bind (relates_loadCode _) fun loaded => ?_
    refine FailsWithin.bind (relates_constructorOffset _ _ _) fun offset => ?_
    split
    · exact (Relates.throw _).failsWithin
    · dsimp only
      split
      · exact (Relates.throw _).failsWithin
      · refine FailsWithin.bind (relates_withCause (relates_internMethodref _ _ _)) fun methodref => ?_
        exact FailsWithin.bind (relates_insertNodesAt _ _ _ _) fun edited => failsWithin_storeCode _ _ _

theorem failsWithin_insertGuard (index : Nat) (code : AttributeInfo) (editor : CodeEditor) (descriptor : Bytes)
    (isStatic : Bool) (guard value : List Instruction) (returns : UInt8) (forwarded : UInt16) :
    FailsWithin Appends (insertGuard index code editor descriptor isStatic guard value returns forwarded) := by
  refine FailsWithin.ite (fun _ => (Relates.throw _).failsWithin) fun _ => ?_
  refine FailsWithin.bind (relates_insertNodesAt _ _ _ _) fun edited => ?_
  split
  · exact (Relates.throw _).failsWithin
  · refine FailsWithin.bind (relates_withCause (relates_buildEntryFrame _ _ _)) fun frame => ?_
    exact FailsWithin.bind (relates_addFrame _ _) fun framed => failsWithin_storeCode _ _ _

theorem failsWithin_insertGuardedCall (name descriptor owner callee : Bytes) (valueCallee : Option Bytes)
    (argument : Int) : FailsWithin Appends (insertGuardedCall name descriptor owner callee valueCallee argument) := by
  unfold insertGuardedCall
  dsimp only
  refine FailsWithin.ite (fun _ => ?_) fun _ => ?_
  · exact (Relates.throw _).failsWithin
  · refine FailsWithin.bind (relates_lookup _) fun found => ?_
    refine FailsWithin.bind (relates_withCause (relates_internClass _)) fun ownerIndex => ?_
    refine FailsWithin.bind (relates_loadCode _) fun loaded => ?_
    split
    · exact (Relates.throw _).failsWithin
    · split
      · exact (Relates.throw _).failsWithin
      · refine FailsWithin.bind (relates_withCause (relates_internMethodref _ _ _)) fun methodref => ?_
        exact FailsWithin.bind (relates_guardedValue _ _ _ _) fun value => failsWithin_insertGuard _ _ _ _ _ _ _ _ _

/-- The hook that was declared is taken away when its call site cannot be written. -/
theorem failsWithin_insertCall (name descriptor : Bytes) (atOffset : Nat) (hookName : Bytes) :
    FailsWithin Appends (insertCall name descriptor atOffset hookName) := by
  refine FailsWithin.bind (relates_lookup _) fun found => ?_
  refine FailsWithin.bind (relates_withCause (relates_internUtf8 _)) fun hookNameIndex => ?_
  refine FailsWithin.bind (relates_withCause (relates_internUtf8 _)) fun voidIndex => ?_
  refine FailsWithin.bind Relates.get fun s' => ?_
  refine FailsWithin.bind (relates_withCause (relates_internMethodref _ _ _)) fun methodref s => ?_
  rw [after_bind]
  refine (after_appendMethod _ s).mono (fun _ t ht => ?_) fun _ _ h => h
  rw [after_bind, after_get, after_tryCatch]
  refine (failsWithin_insertHookCall _ _ _ _ t).mono (fun _ _ _ => trivial) fun e u hu => ?_
  exact appends_removed ht hu

/-- What appending an attribute to a list of them computes. -/
theorem after_appended (list : List AttributeInfo) (a : AttributeInfo) (s : ScarceTree) :
    After (allocating (liftCause (listAppend list a))) s (fun appended t => t.tree = s.tree ∧ appended = list ++ [a])
      (fun _ => Appends s) := by
  unfold allocating
  rw [after_bind, after_withCause]
  refine (after_allocate s).mono (fun _ t ht => ?_) fun _ _ ht => Appends.of_tree_eq ht
  rw [after_onTree]
  unfold listAppend
  split
  · exact Appends.of_tree_eq ht
  · exact ⟨ht, rfl⟩

theorem modify_eq_self {l : List α} {i : Nat} {a : α} {f : α → α} (ha : l[i]? = some a) (hf : f a = a) :
    l.modify i f = l := by
  apply List.ext_getElem?
  intro j
  rw [List.getElem?_modify]
  by_cases hij : i = j
  · rw [← hij, ha]
    simp [hf]
  · simp [hij]

/-- Removing the attribute that was appended to a method gives the tree it was appended in. -/
theorem after_removeRestored {s t : ScarceTree} {index : Nat} {method : MemberInfo} {a : AttributeInfo}
    (hmethod : s.tree.methods[index]? = some method)
    (ht : t.tree = { s.tree with methods := s.tree.methods.modify index fun original =>
      { original with attributes := method.attributes ++ [a] } }) (e : TransformStatus) :
    After (do removeRestored index method.attributes.length; throw e : Transform Unit) t (fun _ _ => True)
      (fun _ => Appends s) := by
  unfold removeRestored modifyMethod
  rw [after_bind, after_onTree, after_modify, after_throw, ht]
  refine Appends.of_tree_eq ?_
  have herased : (method.attributes ++ [a]).eraseIdx method.attributes.length = method.attributes := by
    simp [List.eraseIdx_append_of_length_le]
  dsimp only
  rw [List.modify_modify_eq, modify_eq_self hmethod]
  simp [herased]

theorem failsWithin_restore (name descriptor copyName : Bytes) :
    FailsWithin Appends (restore name descriptor copyName) := by
  intro s
  unfold restore
  rw [after_bind, after_get]
  dsimp only
  split
  case h_2 => exact Appends.of_tree_eq rfl
  case h_1 copyIndex copy index method hcopy hmethod =>
    split
    · exact Appends.of_tree_eq rfl
    rw [after_bind]
    refine (after_appended _ _ s).mono (fun appended t ht => ?_) fun _ _ h => h
    obtain ⟨ht, rfl⟩ := ht
    rw [after_bind, after_onTree]
    unfold modifyMethod
    rw [after_modify, after_bind, after_get, ht]
    split
    · exact after_removeRestored (findMethod_getElem? hmethod) rfl _
    · rw [after_bind, after_tryCatch, after_withCause]
      refine (after_allocate _).mono (fun _ u hu => trivial) fun e u hu => ?_
      exact after_removeRestored (findMethod_getElem? hmethod) hu _

theorem failsWithin_run (call : TransformCall) : FailsWithin Appends (run call) := by
  unfold run
  split
  · exact failsWithin_makeNative _ _ _
  · exact failsWithin_restore _ _ _
  · exact failsWithin_insertCall _ _ _ _
  · exact failsWithin_insertStaticCall _ _ _ _ _ _ _
  · exact failsWithin_insertGuardedCall _ _ _ _ _ _
  · exact (Relates.throw _).failsWithin

end Scarce

/-- A transform that fails, at whichever step and whatever the allocator answered, leaves every part of the class as it
was; only constants may stand behind those of the pool. -/
theorem failed_transform_appends (call : TransformCall) {s t : ScarceTree} {e : TransformStatus}
    (h : Scarce.run call s = .error e t) : t.tree.interfaces = s.tree.interfaces ∧ t.tree.fields = s.tree.fields ∧
      t.tree.methods = s.tree.methods ∧ t.tree.attributes = s.tree.attributes ∧
      ∃ added, t.tree = { s.tree with constantPool := ⟨s.tree.constantPool.entries ++ added⟩ } := by
  obtain ⟨added, ht⟩ := (Scarce.failsWithin_run call s).of_error h
  rw [ht]
  exact ⟨rfl, rfl, rfl, rfl, added, rfl⟩

/-- The hook call in front of `f()V` is refused the memory for the body it is stored in. -/
theorem failed_transform_appends_stored :
    ∃ cf t, classfileParse plainClassBytes = .ok cf ∧
      Scarce.run (.insertCall (some (text "f")) (some (text "()V")) 0 (some (text "hook")))
        ⟨cf, List.replicate 6 .granted ++ [.denied]⟩ = .error (.classfile .outOfMemory) t ∧
      t.tree.constantPool.entries.length = cf.constantPool.entries.length + 3 ∧ t.tree.methods = cf.methods := by
  have hfails : (classfileParse plainClassBytes).toOption.any (fun cf =>
      match Scarce.run (.insertCall (some (text "f")) (some (text "()V")) 0 (some (text "hook")))
        ⟨cf, List.replicate 6 .granted ++ [.denied]⟩ with
      | .ok _ _ => false
      | .error e t => e == .classfile .outOfMemory &&
        t.tree.constantPool.entries.length == cf.constantPool.entries.length + 3) = true := by decide +kernel
  cases hcf : classfileParse plainClassBytes with
  | error e =>
    rw [hcf] at hfails
    cases hfails
  | ok cf =>
    simp only [hcf, Except.toOption, Option.any_some] at hfails
    split at hfails
    · cases hfails
    · rename_i e t hrun
      simp only [Bool.and_eq_true, beq_iff_eq] at hfails
      obtain ⟨rfl, hlength⟩ := hfails
      exact ⟨cf, t, rfl, hrun, hlength, (failed_transform_appends _ hrun).2.2.1⟩

/-! ## An allocator that never refuses -/

/-- A tree in front of an allocator that grants everything. -/
def ScarceTree.plenty (cf : ClassFile) : ScarceTree := ⟨cf, []⟩

namespace Scarce

variable {ε α β : Type}

theorem embeds_onTree (x : EStateM ε ClassFile α) : Embeds ScarceTree.plenty (onTree x) x := by
  intro cf
  unfold onTree embedResult ScarceTree.plenty
  cases x cf <;> rfl

theorem embeds_withCause {x : Edit α} {y : Jni2Hook.Edit α} (h : Embeds ScarceTree.plenty x y) :
    Embeds ScarceTree.plenty (withCause x) (Jni2Hook.withCause y) := by
  intro cf
  unfold withCause Jni2Hook.withCause
  rw [h cf]
  cases y cf <;> rfl

theorem allocate_plenty (cf : ClassFile) : allocate (.plenty cf) = .ok () (.plenty cf) := rfl

theorem allocated_plenty (cf : ClassFile) : withCause allocate (.plenty cf) = .ok () (.plenty cf) := rfl

theorem embeds_allocating (x : Jni2Hook.Transform α) : Embeds ScarceTree.plenty (allocating x) x :=
  Embeds.skip allocated_plenty (embeds_onTree x)

theorem embeds_internConstant (entry : CpInfo) :
    Embeds ScarceTree.plenty (internConstant entry) (Jni2Hook.internConstant entry) := by
  refine Embeds.get_bind fun cf => ?_
  dsimp only [ScarceTree.plenty]
  cases constantPoolFind cf.constantPool (· == entry) with
  | some index => exact Embeds.pure _
  | none => exact Embeds.skip allocate_plenty (embeds_onTree _)

theorem embeds_internUtf8 (text : Bytes) :
    Embeds ScarceTree.plenty (classFileInternUtf8 text) (Jni2Hook.classFileInternUtf8 text) :=
  Embeds.ite (Embeds.throw _) (embeds_internConstant _)

theorem embeds_internClass (name : Bytes) :
    Embeds ScarceTree.plenty (classFileInternClass name) (Jni2Hook.classFileInternClass name) :=
  (embeds_internUtf8 name).bind fun _ => embeds_internConstant _

theorem embeds_internMethodref (classIndex : UInt16) (name descriptor : Bytes) :
    Embeds ScarceTree.plenty (classFileInternMethodref classIndex name descriptor)
      (Jni2Hook.classFileInternMethodref classIndex name descriptor) := by
  have hnameAndType : Embeds ScarceTree.plenty (classFileInternNameAndType name descriptor)
      (Jni2Hook.classFileInternNameAndType name descriptor) :=
    (embeds_internUtf8 name).bind fun _ => (embeds_internUtf8 descriptor).bind fun _ => embeds_internConstant _
  exact hnameAndType.bind fun _ => embeds_internConstant _

theorem embeds_constructorOffset (editor : CodeEditor) (method : MemberInfo) (offset : Nat) :
    Embeds ScarceTree.plenty (constructorOffset editor method offset)
      (lookup fun cf => Jni2Hook.constructorOffset cf editor (isInstanceInitializer cf method) offset) := by
  refine Embeds.get_bind fun cf => ?_
  unfold Jni2Hook.constructorOffset
  dsimp only [ScarceTree.plenty]
  by_cases hinit : isInstanceInitializer cf method = true
  · simp only [hinit, if_true]
    refine Embeds.skip (fun _ => rfl) ?_
    cases constructorInitOffset cf editor with
    | found safeOffset => exact Embeds.pure _
    | ambiguous => exact Embeds.throw _
    | missing => exact Embeds.throw _
  · simp only [hinit]
    exact Embeds.pure _

theorem embeds_makeNative (name descriptor copyName : Bytes) :
    Embeds ScarceTree.plenty (makeNative name descriptor copyName) (Jni2Hook.makeNative name descriptor copyName) := by
  refine (embeds_onTree _).bind fun found => ?_
  refine (embeds_withCause (embeds_internUtf8 copyName)).bind fun copyNameIndex => ?_
  refine Embeds.skip allocated_plenty ?_
  exact (embeds_allocating _).bind fun _ => embeds_onTree _

theorem embeds_insertHookCall (index : Nat) (method : MemberInfo) (atOffset : Nat) (methodref : UInt16) :
    Embeds ScarceTree.plenty (insertHookCall index method atOffset methodref)
      (Jni2Hook.insertHookCall index method atOffset methodref) := by
  refine (embeds_allocating _).bind fun loaded => ?_
  refine (embeds_constructorOffset _ _ _).bind fun offset => ?_
  exact (embeds_allocating _).bind fun edited => embeds_allocating _

theorem embeds_insertCall (name descriptor : Bytes) (atOffset : Nat) (hookName : Bytes) :
    Embeds ScarceTree.plenty (insertCall name descriptor atOffset hookName)
      (Jni2Hook.insertCall name descriptor atOffset hookName) := by
  refine (embeds_onTree _).bind fun found => ?_
  refine (embeds_withCause (embeds_internUtf8 hookName)).bind fun hookNameIndex => ?_
  refine (embeds_withCause (embeds_internUtf8 _)).bind fun voidIndex => ?_
  refine Embeds.get_bind fun cf => ?_
  refine (embeds_withCause (embeds_internMethodref _ _ _)).bind fun methodref => ?_
  refine (embeds_allocating _).bind fun _ => Embeds.get_bind fun cf' => ?_
  refine (embeds_insertHookCall _ _ _ _).tryCatch fun e => ?_
  exact (embeds_onTree _).bind fun _ => Embeds.throw e

theorem embeds_insertStaticCall (name descriptor : Bytes) (atOffset : Nat) (owner callee : Bytes) (argument : Int)
    (forwardArguments : Bool) :
    Embeds ScarceTree.plenty (insertStaticCall name descriptor atOffset owner callee argument forwardArguments)
      (Jni2Hook.insertStaticCall name descriptor atOffset owner callee argument forwardArguments) := by
  refine Embeds.ite (Embeds.throw _) ?_
  refine (embeds_onTree _).bind fun found => ?_
  refine (embeds_withCause (embeds_internClass owner)).bind fun ownerIndex => ?_
  refine (embeds_allocating _).bind fun loaded => ?_
  refine (embeds_constructorOffset _ _ _).bind fun offset => ?_
  cases describeParameters descriptor (hasFlag found.2.accessFlags Acc.static_) with
  | none => exact Embeds.throw _
  | some described =>
    dsimp only
    cases buildCalleeDescriptor (if forwardArguments then described else []) 0x56 with
    | none => exact Embeds.throw _
    | some calleeDescriptor =>
      refine (embeds_withCause (embeds_internMethodref _ _ _)).bind fun methodref => ?_
      exact (embeds_allocating _).bind fun edited => embeds_allocating _

theorem embeds_parameterType (brackets element : Bytes) (isClass : Bool) :
    Embeds ScarceTree.plenty (parameterType brackets element isClass)
      (Jni2Hook.parameterType brackets element isClass) := by
  refine Embeds.ite ?_ ?_
  · exact Embeds.ite (Embeds.throw _) ((embeds_internClass _).bind fun _ => Embeds.pure _)
  · cases element.head?.bind primitiveType with
    | none => exact Embeds.throw _
    | some type => exact Embeds.pure _

theorem embeds_entryFrameLoop (fuel : Nat) (descriptor : Bytes) (found : List VerificationType) :
    Embeds ScarceTree.plenty (entryFrameLoop fuel descriptor found)
      (Jni2Hook.entryFrameLoop fuel descriptor found) := by
  induction fuel generalizing descriptor found with
  | zero => exact Embeds.throw _
  | succ fuel ih =>
    unfold entryFrameLoop
    split
    · exact Embeds.throw _
    · exact Embeds.pure _
    · rename_i hnil hclose
      rw [Jni2Hook.entryFrameLoop.eq_4 _ _ _ hnil hclose]
      refine Embeds.ite (Embeds.throw _) ?_
      dsimp only
      cases descriptor.dropWhile (· == 0x5B) with
      | nil => exact Embeds.throw _
      | cons letter rest =>
        dsimp only
        cases afterType letter rest with
        | none => exact Embeds.throw _
        | some after => exact (embeds_parameterType _ _ _).bind fun type => ih _ _

theorem embeds_buildEntryFrame (descriptor : Bytes) (isStatic : Bool) (offset : Int) :
    Embeds ScarceTree.plenty (buildEntryFrame descriptor isStatic offset)
      (Jni2Hook.buildEntryFrame descriptor isStatic offset) := by
  refine Embeds.get_bind fun cf => ?_
  refine (embeds_entryFrameLoop _ _ _).bind fun locals => ?_
  exact Embeds.skip allocate_plenty (Embeds.pure _)

theorem embeds_guardedValue (returnType : Bytes) (ownerIndex : UInt16) (valueCallee : Option Bytes) (argument : Int) :
    Embeds ScarceTree.plenty (guardedValue returnType ownerIndex valueCallee argument)
      (Jni2Hook.guardedValue returnType ownerIndex valueCallee argument) := by
  refine Embeds.ite (Embeds.pure _) ?_
  cases valueCallee with
  | none => exact Embeds.pure _
  | some callee =>
    dsimp only
    cases valueLetters returnType 3 with
    | none => exact Embeds.throw _
    | some letters =>
      refine (embeds_withCause (embeds_internMethodref _ _ _)).bind fun valueRef => ?_
      refine Embeds.ite (Embeds.ite (Embeds.throw _) (Embeds.ite (Embeds.throw _) ?_)) (Embeds.pure _)
      exact (embeds_withCause (embeds_internClass _)).bind fun castIndex => Embeds.pure _

theorem embeds_addFrame (editor : CodeEditor) (frame : StackMapFrame) :
    Embeds ScarceTree.plenty (addFrame editor frame) (Jni2Hook.addFrame editor frame) := by
  refine (embeds_allocating _).bind fun frames => ?_
  cases editor.stackMap with
  | some table => exact Embeds.pure _
  | none => exact (embeds_withCause (embeds_internUtf8 _)).bind fun nameIndex => Embeds.pure _

theorem embeds_insertGuard (index : Nat) (code : AttributeInfo) (editor : CodeEditor) (descriptor : Bytes)
    (isStatic : Bool) (guard value : List Instruction) (returns : UInt8) (forwarded : UInt16) :
    Embeds ScarceTree.plenty (insertGuard index code editor descriptor isStatic guard value returns forwarded)
      (Jni2Hook.insertGuard index code editor descriptor isStatic guard value returns forwarded) := by
  refine Embeds.ite (Embeds.throw _) ?_
  refine (embeds_allocating _).bind fun edited => ?_
  cases edited.instructions.items[(guard ++ newNode Opc.ifeq (.branch 0) ::
      (value ++ [newNode (returnOpcodeFor returns) .none])).length]? with
  | none => exact Embeds.throw _
  | some body =>
    refine (embeds_withCause (embeds_buildEntryFrame _ _ _)).bind fun frame => ?_
    exact (embeds_addFrame _ _).bind fun framed => embeds_allocating _

theorem embeds_insertGuardedCall (name descriptor owner callee : Bytes) (valueCallee : Option Bytes) (argument : Int) :
    Embeds ScarceTree.plenty (insertGuardedCall name descriptor owner callee valueCallee argument)
      (Jni2Hook.insertGuardedCall name descriptor owner callee valueCallee argument) := by
  refine Embeds.ite (Embeds.throw _) ?_
  refine (embeds_onTree _).bind fun found => ?_
  refine (embeds_withCause (embeds_internClass owner)).bind fun ownerIndex => ?_
  refine (embeds_allocating _).bind fun loaded => ?_
  cases describeParameters descriptor (hasFlag found.2.1.accessFlags Acc.static_) with
  | none => exact Embeds.throw _
  | some parameters =>
    dsimp only
    cases buildCalleeDescriptor parameters 0x5A with
    | none => exact Embeds.throw _
    | some calleeDescriptor =>
      refine (embeds_withCause (embeds_internMethodref _ _ _)).bind fun methodref => ?_
      exact (embeds_guardedValue _ _ _ _).bind fun value => embeds_insertGuard _ _ _ _ _ _ _ _ _

/-- The Code attribute of the copy is the one that was found before an empty attribute was appended. -/
theorem codeOf_appended {cf : ClassFile} {copyIndex index : Nat} {copy method : MemberInfo} {code : AttributeInfo}
    (hcopy : cf.methods[copyIndex]? = some copy) (hmethod : cf.methods[index]? = some method)
    (hcode : findCode cf copy = some code) (a : AttributeInfo) :
    codeOf { cf with methods := cf.methods.modify index fun original =>
      { original with attributes := method.attributes ++ [a] } } copyIndex = some code := by
  unfold codeOf
  dsimp only
  rw [List.getElem?_modify]
  by_cases hindex : index = copyIndex
  · subst hindex
    rw [hmethod] at hcopy
    cases hcopy
    unfold findCode attributeListFind at *
    simp [hmethod, List.find?_append, hcode]
  · simp only [hindex, if_false, hcopy]
    exact hcode

/-- An attribute appended empty and then filled was appended full. -/
theorem modify_filled (methods : List MemberInfo) (index : Nat) (attributes : List AttributeInfo)
    (a code : AttributeInfo) (f : MemberInfo → MemberInfo) :
    (methods.modify index fun original => { original with attributes := attributes ++ [a] }).modify index
        (fun original => f { original with attributes := original.attributes.set attributes.length code }) =
      methods.modify index fun original => f { original with attributes := attributes ++ [code] } := by
  have hset : (attributes ++ [a]).set attributes.length code = attributes ++ [code] := by simp
  rw [List.modify_modify_eq]
  unfold Function.comp
  simp only [hset]

theorem embeds_restore (name descriptor copyName : Bytes) :
    Embeds ScarceTree.plenty (restore name descriptor copyName) (Jni2Hook.restore name descriptor copyName) := by
  intro cf
  unfold restore Jni2Hook.restore
  rw [run_bind, run_bind, run_get, run_get]
  dsimp only [ScarceTree.plenty]
  cases hcopy : findMethod cf copyName descriptor with
  | none => rfl
  | some copied =>
    obtain ⟨copyIndex, copy⟩ := copied
    cases hmethod : findMethod cf name descriptor with
    | none => rfl
    | some found =>
      obtain ⟨index, method⟩ := found
      dsimp only
      cases hcode : findCode cf copy with
      | none => rfl
      | some code =>
        unfold listAppend
        by_cases hfull : method.attributes.length = classfileMaxCount
        · simp only [hfull, if_true]
          rfl
        · simp only [hfull, if_false]
          have hfound := codeOf_appended (findMethod_getElem? hcopy) (findMethod_getElem? hmethod) hcode ⟨0, 0, []⟩
          -- both runs are computed as far as the second look at the copy
          show (match codeOf { cf with methods := cf.methods.modify index fun original =>
            { original with attributes := method.attributes ++ [⟨0, 0, []⟩] } } copyIndex with
            | none => _
            | some code => _ : Transform Unit) _ = _
          rw [hfound]
          exact congrArg
            (fun methods : List MemberInfo =>
              EStateM.Result.ok () (ScarceTree.plenty { cf with methods := methods.eraseIdx copyIndex }))
            (modify_filled cf.methods index method.attributes ⟨0, 0, []⟩ code fun m => memberInfoSetNative m false)

theorem embeds_run (call : TransformCall) : Embeds ScarceTree.plenty (run call) call.run := by
  cases call with
  | makeNative name descriptor copyName =>
    cases name <;> cases descriptor <;> cases copyName <;> first
      | exact embeds_makeNative _ _ _
      | exact Embeds.throw _
  | restore name descriptor copyName =>
    cases name <;> cases descriptor <;> cases copyName <;> first
      | exact embeds_restore _ _ _
      | exact Embeds.throw _
  | insertCall name descriptor atOffset hookName =>
    cases name <;> cases descriptor <;> cases hookName <;> first
      | exact embeds_insertCall _ _ _ _
      | exact Embeds.throw _
  | insertStaticCall name descriptor atOffset owner callee argument forwardArguments =>
    cases name <;> cases descriptor <;> cases owner <;> cases callee <;> first
      | exact embeds_insertStaticCall _ _ _ _ _ _ _
      | exact Embeds.throw _
  | insertGuardedCall name descriptor owner callee valueCallee argument =>
    cases name <;> cases descriptor <;> cases owner <;> cases callee <;> first
      | exact embeds_insertGuardedCall _ _ _ _ _ _
      | exact Embeds.throw _

end Scarce

/-- With an allocator that grants everything, a call does what it does on the tree alone. -/
theorem embeds_transform (call : TransformCall) (cf : ClassFile) :
    Scarce.run call (.plenty cf) = match call.run cf with
      | .ok a cf' => .ok a (.plenty cf')
      | .error e cf' => .error e (.plenty cf') := by
  rw [Scarce.embeds_run call cf]
  unfold embedResult
  cases call.run cf <;> rfl

end Jni2Hook
