import Jni2Hook.Code.ConstructorInit
import Jni2Hook.Transform.Descriptor

/-!
# Class transforms

The five transforms of `class_transform.c`. Each one works on the tree in place and leaves it as it is when it fails on
the way; `NULL` arguments are `none`.
-/

namespace Jni2Hook

/-- `transform_status` without `TRANSFORM_OK`; a class file error carries its cause. `overrun` is no status of the
source: the call writes or copies past the end of an array there, and C does not say what follows. -/
inductive TransformStatus
  | methodNotFound | alreadyNative | abstract_ | initializer | interface_ | noCode | nameInUse
  | classfile (cause : ClassfileStatus)
  | badOffset | ambiguousInit
  | overrun
  deriving DecidableEq, Repr

/-- Transforms of a tree. -/
abbrev Transform := EStateM TransformStatus ClassFile

/-- `fail`: a class file error of a step is the cause of the transform's error. -/
def withCause {α : Type} (x : Edit α) : Transform α := fun cf =>
  match x cf with
  | .ok a cf' => .ok a cf'
  | .error e cf' => .error (.classfile e) cf'

/-- A step that does not touch the tree. -/
def liftCause {α : Type} (x : Except ClassfileStatus α) : Transform α :=
  match x with
  | .ok a => return a
  | .error e => throw (.classfile e)

/-- A step of a transform that only looks at the tree. -/
def lookup {α : Type} (f : ClassFile → Except TransformStatus α) : Transform α := do
  match f (← get) with
  | .ok a => return a
  | .error e => throw e

/-! ## Methods -/

def isInitializer (cf : ClassFile) (method : MemberInfo) : Bool :=
  classFileUtf8Equals cf method.nameIndex (text "<init>") || classFileUtf8Equals cf method.nameIndex (text "<clinit>")

def isInstanceInitializer (cf : ClassFile) (method : MemberInfo) : Bool :=
  classFileUtf8Equals cf method.nameIndex (text "<init>")

/-- The method `classFile_find_method` finds, with its index. -/
def findMethod (cf : ClassFile) (name descriptor : Bytes) : Option (Nat × MemberInfo) := do
  let index ← classFileFindMethod cf name descriptor
  let method ← cf.methods[index]?
  return (index, method)

/-- The Code attribute of a method. -/
def findCode (cf : ClassFile) (method : MemberInfo) : Option AttributeInfo :=
  attributeListFind method.attributes cf.constantPool (text "Code")

/-- The Code attribute of the method of that index, as the tree is now. -/
def codeOf (cf : ClassFile) (index : Nat) : Option AttributeInfo := cf.methods[index]?.bind (findCode cf)

/-- The test of `attribute_list_find` for `Code`. -/
def isCode (pool : ConstantPool) (a : AttributeInfo) : Bool :=
  constantPoolUtf8Equals pool a.attributeNameIndex (text "Code")

/-- Writes through the pointer to the first Code attribute. -/
def replaceCode (pool : ConstantPool) (code : AttributeInfo) (attributes : List AttributeInfo) : List AttributeInfo :=
  match attributes.findIdx? (isCode pool) with
  | some i => attributes.set i code
  | none => attributes

/-- Changes one method. -/
def modifyMethod (index : Nat) (f : ClassFile → MemberInfo → MemberInfo) : Transform Unit :=
  modify fun cf => { cf with methods := cf.methods.modify index (f cf) }

/-- `member_list_append`. -/
def appendMethod (method : MemberInfo) : Transform Unit := do
  let cf ← get
  match listAppend cf.methods method with
  | .error e => throw (.classfile e)
  | .ok methods => set { cf with methods := methods }

/-- `member_list_remove`. -/
def removeMethod (index : Nat) : Transform Unit := modify fun cf => { cf with methods := cf.methods.eraseIdx index }

def copyFlags (originalFlags : UInt16) : UInt16 :=
  let inherited := Acc.static_ ||| Acc.synchronized_ ||| Acc.bridge ||| Acc.varargs ||| Acc.strict ||| Acc.synthetic
  Acc.private_ ||| Acc.final_ ||| (originalFlags &&& inherited)

/-! ## Replacing a method -/

/-- The guards of `class_transform_make_native`. -/
def replaceableMethod (cf : ClassFile) (name descriptor copyName : Bytes) :
    Except TransformStatus (Nat × MemberInfo) :=
  if hasFlag cf.accessFlags Acc.interface then .error .interface_
  else if (findMethod cf copyName descriptor).isSome then .error .nameInUse
  else match findMethod cf name descriptor with
    | none => .error .methodNotFound
    | some (index, method) =>
      if isInitializer cf method then .error .initializer
      else if hasFlag method.accessFlags Acc.native then .error .alreadyNative
      else if hasFlag method.accessFlags Acc.abstract_ then .error .abstract_
      else if (findCode cf method).isNone then .error .noCode
      else .ok (index, method)

/-- `class_transform_make_native` on arguments that are there. -/
def makeNative (name descriptor copyName : Bytes) : Transform Unit := do
  let (index, method) ← lookup fun cf => replaceableMethod cf name descriptor copyName
  let copyNameIndex ← withCause (classFileInternUtf8 copyName)
  appendMethod { method with nameIndex := copyNameIndex, accessFlags := copyFlags method.accessFlags }
  modifyMethod index fun cf original =>
    { memberInfoSetNative original true with
      attributes := attributeListRemoveNamed original.attributes cf.constantPool (text "Code") }

/-- `class_transform_restore` on arguments that are there. -/
def restore (name descriptor copyName : Bytes) : Transform Unit := do
  let cf ← get
  match findMethod cf copyName descriptor, findMethod cf name descriptor with
  | some (copyIndex, copy), some (index, method) =>
    match findCode cf copy with
    | none => throw .noCode
    | some code =>
      let restored ← liftCause (listAppend method.attributes code)
      modifyMethod index fun _ original => memberInfoSetNative { original with attributes := restored } false
      removeMethod copyIndex
  | _, _ => throw .methodNotFound

/-! ## Inserting calls -/

/-- A node as the transforms fill it in, behind `memset`. -/
def newNode (opcode : UInt8) (operand : Operand) : Instruction := ⟨0, opcode, false, operand⟩

/-- The guards that `class_transform_insert_call` and `class_transform_insert_static_call` share: the method and
whether it is a constructor. -/
def insertableMethod (cf : ClassFile) (name descriptor : Bytes) : Except TransformStatus (Nat × MemberInfo) :=
  match findMethod cf name descriptor with
  | none => .error .methodNotFound
  | some (index, method) =>
    if classFileUtf8Equals cf method.nameIndex (text "<clinit>") then .error .initializer
    else if hasFlag method.accessFlags Acc.abstract_ then .error .abstract_
    else if hasFlag method.accessFlags Acc.native then .error .alreadyNative
    else if (findCode cf method).isNone then .error .noCode
    else .ok (index, method)

/-- In a constructor, an offset before the end of the initialising call is moved there. -/
def constructorOffset (cf : ClassFile) (editor : CodeEditor) (isConstructor : Bool) (offset : Nat) :
    Except TransformStatus Nat :=
  if isConstructor then
    match constructorInitOffset cf editor with
    | .found safeOffset => .ok (if offset < safeOffset then safeOffset else offset)
    | .ambiguous => .error .ambiguousInit
    | .missing => .error .initializer
  else .ok offset

/-- The Code attribute of a method, loaded. -/
def loadCode (index : Nat) : Transform (AttributeInfo × CodeEditor) := do
  let cf ← get
  match codeOf cf index with
  | none => throw .noCode
  | some code => return (code, ← liftCause (codeEditorLoad code cf.constantPool))

/-- `code_editor_store` into the Code attribute of a method. -/
def storeCode (index : Nat) (editor : CodeEditor) (code : AttributeInfo) : Transform Unit := do
  let stored ← liftCause (codeEditorStore editor code)
  modifyMethod index fun cf method => { method with attributes := replaceCode cf.constantPool stored method.attributes }

/-- `code_editor_insert`, with a bad offset reported as such. -/
def insertNodesAt (editor : CodeEditor) (offset : Nat) (nodes : List Instruction) (extraStack : UInt16) :
    Transform CodeEditor :=
  match codeEditorInsert editor offset nodes extraStack with
  | (.ok _, edited) => return edited
  | (.error .badOffset, _) => throw .badOffset
  | (.error e, _) => throw (.classfile e)

/-- The loads that forward the parameters, and the call behind them. -/
def forwardNodes (argument : Int) (parameters : List ForwardedParameter) (methodref : UInt16) : List Instruction :=
  newNode Opc.sipush (.immediate argument) ::
    (parameters.map (fun p => newNode p.loadOpcode (.local_ p.slot)) ++
      [newNode Opc.invokestatic (.cpIndex methodref)])

/-- The stack the forwarding call needs. -/
def forwardStack (parameters : List ForwardedParameter) : UInt16 :=
  parameters.foldl (fun pushed p => pushed + pushedBy p) 1

/-- The two bounds on the argument that `sipush` can carry. -/
def argumentFits (argument : Int) : Bool := !(argument < -32768 || argument > 32767)

/-- `class_transform_insert_static_call` on arguments that are there. -/
def insertStaticCall (name descriptor : Bytes) (atOffset : Nat) (owner callee : Bytes) (argument : Int)
    (forwardArguments : Bool) : Transform Unit := do
  if argumentFits argument = false then throw .badOffset
  let (index, method) ← lookup fun cf => insertableMethod cf name descriptor
  let ownerIndex ← withCause (classFileInternClass owner)
  let (code, editor) ← loadCode index
  let offset ← lookup fun cf => constructorOffset cf editor (isInstanceInitializer cf method) atOffset
  match describeParameters descriptor (hasFlag method.accessFlags Acc.static_) with
  | none => throw .methodNotFound
  | some described =>
    let parameters := if forwardArguments then described else []
    match buildCalleeDescriptor parameters 0x56 with
    | none => throw .methodNotFound
    | some calleeDescriptor =>
      let methodref ← withCause (classFileInternMethodref ownerIndex callee calleeDescriptor)
      let edited ← insertNodesAt editor offset (forwardNodes argument parameters methodref) (forwardStack parameters)
      storeCode index edited code

/-- The nodes that `class_transform_insert_guarded_call` has room for: `instruction nodes[70]`. -/
def nodeCapacity : Nat := 70

/-- The value a guarded method returns in place of its body: nothing, the call of `value_callee` or the default. -/
def guardedValue (returnType : Bytes) (ownerIndex : UInt16) (valueCallee : Option Bytes) (argument : Int) :
    Transform (List Instruction) :=
  let returns := returnType.headD 0
  let reference := returns = 0x4C ∨ returns = 0x5B
  if returns = 0x56 then return []
  else match valueCallee with
  | none => return [newNode (defaultOpcodeFor returns) .none]
  | some callee =>
    match valueLetters returnType 3 with
    | none => throw (.classfile .unsupported)
    | some letters => do
      let valueRef ← withCause (classFileInternMethodref ownerIndex callee
        (if reference then text "(I)Ljava/lang/Object;" else text "(I)" ++ letters))
      let call := [newNode Opc.sipush (.immediate argument), newNode Opc.invokestatic (.cpIndex valueRef)]
      if reference then
        if returnType.length ≥ 512 then throw (.classfile .unsupported)
        -- behind a lone `L`, `length - 2` of the `memcpy` wraps around
        else if returns = 0x4C ∧ returnType.length < 2 then throw .overrun
        else do
          let castIndex ← withCause (classFileInternClass
            (if returns = 0x4C then (returnType.drop 1).take (returnType.length - 2) else returnType))
          return call ++ [newNode Opc.checkcast (.cpIndex castIndex)]
      else return call

/-- The branch of the guard, once the offset of the body is known. -/
def patchBranch (editor : CodeEditor) (branchNode : Nat) (target : Int) : CodeEditor :=
  { editor with instructions := { editor.instructions with
      items := editor.instructions.items.modify branchNode fun node => { node with operand := .branch target } } }

/-- The frame of the body, in the table that is there or in a new one. -/
def addFrame (editor : CodeEditor) (frame : StackMapFrame) : Transform CodeEditor := do
  let frames ← liftCause (insertFrame (tableEntries editor.stackMap) frame)
  match editor.stackMap with
  | some table => return { editor with stackMap := some { table with entries := frames } }
  | none => do
    let nameIndex ← withCause (classFileInternUtf8 (text "StackMapTable"))
    return { editor with stackMap := some ⟨nameIndex, frames⟩ }

/-- The end of `class_transform_insert_guarded_call`: the guard and the return in front of the body, and the frame the
branch over them needs. The nodes are written without a check of their number. -/
def insertGuard (index : Nat) (code : AttributeInfo) (editor : CodeEditor) (descriptor : Bytes) (isStatic : Bool)
    (guard value : List Instruction) (returns : UInt8) (forwarded : UInt16) : Transform Unit := do
  let nodes := guard ++ newNode Opc.ifeq (.branch 0) :: (value ++ [newNode (returnOpcodeFor returns) .none])
  if nodes.length > nodeCapacity then throw .overrun
  let edited ← insertNodesAt editor 0 nodes (if returns ≠ 0x56 ∧ forwarded < 2 then 2 else forwarded)
  match edited.instructions.items[nodes.length]? with
  | none => throw (.classfile .unsupported)
  | some body =>
    let bodyOffset := wrapI4 body.offset
    let frame ← withCause (buildEntryFrame descriptor isStatic bodyOffset)
    let framed ← addFrame (patchBranch edited guard.length bodyOffset) frame
    storeCode index framed code

/-- The guards of `class_transform_insert_guarded_call`: the method and its return type. -/
def guardableMethod (cf : ClassFile) (name descriptor : Bytes) : Except TransformStatus (Nat × MemberInfo × Bytes) :=
  match findMethod cf name descriptor with
  | none => .error .methodNotFound
  | some (index, method) =>
    if isInitializer cf method then .error .initializer
    else if hasFlag method.accessFlags Acc.abstract_ then .error .abstract_
    else if hasFlag method.accessFlags Acc.native then .error .alreadyNative
    else if (findCode cf method).isNone then .error .noCode
    else match (descriptor.dropWhile (· != 0x29)).drop 1 with
      | [] => .error .methodNotFound
      | returnType => .ok (index, method, returnType)

/-- `class_transform_insert_guarded_call` on arguments that are there. -/
def insertGuardedCall (name descriptor owner callee : Bytes) (valueCallee : Option Bytes) (argument : Int) :
    Transform Unit := do
  if argumentFits argument = false then throw .badOffset
  let (index, method, returnType) ← lookup fun cf => guardableMethod cf name descriptor
  let isStatic := hasFlag method.accessFlags Acc.static_
  let ownerIndex ← withCause (classFileInternClass owner)
  let (code, editor) ← loadCode index
  match describeParameters descriptor isStatic with
  | none => throw .methodNotFound
  | some parameters =>
    match buildCalleeDescriptor parameters 0x5A with
    | none => throw .methodNotFound
    | some calleeDescriptor =>
      let methodref ← withCause (classFileInternMethodref ownerIndex callee calleeDescriptor)
      let value ← guardedValue returnType ownerIndex valueCallee argument
      insertGuard index code editor descriptor isStatic (forwardNodes argument parameters methodref) value
        (returnType.headD 0) (forwardStack parameters)

/-- The call that `class_transform_insert_call` inserts. -/
def hookNodes (isStatic : Bool) (methodref : UInt16) : List Instruction :=
  if isStatic then [newNode Opc.invokestatic (.cpIndex methodref)]
  else [newNode Opc.aload_0 .none, newNode Opc.invokespecial (.cpIndex methodref)]

/-- The native method that `class_transform_insert_call` declares. -/
def hookMethod (isStatic : Bool) (hookNameIndex voidIndex : UInt16) : MemberInfo :=
  ⟨Acc.private_ ||| Acc.final_ ||| Acc.native ||| (if isStatic then Acc.static_ else 0), hookNameIndex, voidIndex, []⟩

/-- The call site of a hook in a method, once the hook is declared. -/
def insertHookCall (index : Nat) (method : MemberInfo) (atOffset : Nat) (methodref : UInt16) : Transform Unit := do
  let (code, editor) ← loadCode index
  let offset ← lookup fun cf => constructorOffset cf editor (isInstanceInitializer cf method) atOffset
  let edited ← insertNodesAt editor offset (hookNodes (hasFlag method.accessFlags Acc.static_) methodref) 1
  storeCode index edited code

/-- `class_transform_insert_call` on arguments that are there. The callee is declared before its call site is written,
and taken away again when that fails. -/
def insertCall (name descriptor : Bytes) (atOffset : Nat) (hookName : Bytes) : Transform Unit := do
  let (index, method) ← lookup fun cf =>
    if hasFlag cf.accessFlags Acc.interface then .error .interface_
    else if (findMethod cf hookName (text "()V")).isSome then .error .nameInUse
    else insertableMethod cf name descriptor
  let hookNameIndex ← withCause (classFileInternUtf8 hookName)
  let voidIndex ← withCause (classFileInternUtf8 (text "()V"))
  let methodref ← withCause (classFileInternMethodref (← get).thisClass hookName (text "()V"))
  appendMethod (hookMethod (hasFlag method.accessFlags Acc.static_) hookNameIndex voidIndex)
  let hookIndex := (← get).methods.length - 1
  tryCatch (insertHookCall index method atOffset methodref) fun e => do
    removeMethod hookIndex
    throw e

/-! ## The interface -/

def classTransformMakeNative (name descriptor copyName : Option Bytes) : Transform Unit :=
  match name, descriptor, copyName with
  | some name, some descriptor, some copyName => makeNative name descriptor copyName
  | _, _, _ => throw .methodNotFound

def classTransformRestore (name descriptor copyName : Option Bytes) : Transform Unit :=
  match name, descriptor, copyName with
  | some name, some descriptor, some copyName => restore name descriptor copyName
  | _, _, _ => throw .methodNotFound

def classTransformInsertStaticCall (name descriptor : Option Bytes) (atOffset : UInt32) (owner callee : Option Bytes)
    (argument : Int) (forwardArguments : Bool) : Transform Unit :=
  match name, descriptor, owner, callee with
  | some name, some descriptor, some owner, some callee =>
    insertStaticCall name descriptor atOffset.toNat owner callee argument forwardArguments
  | _, _, _, _ => throw .methodNotFound

def classTransformInsertGuardedCall (name descriptor owner callee valueCallee : Option Bytes) (argument : Int) :
    Transform Unit :=
  match name, descriptor, owner, callee with
  | some name, some descriptor, some owner, some callee =>
    insertGuardedCall name descriptor owner callee valueCallee argument
  | _, _, _, _ => throw .methodNotFound

def classTransformInsertCall (name descriptor : Option Bytes) (atOffset : UInt32) (hookName : Option Bytes) :
    Transform Unit :=
  match name, descriptor, hookName with
  | some name, some descriptor, some hookName => insertCall name descriptor atOffset.toNat hookName
  | _, _, _ => throw .methodNotFound

end Jni2Hook
