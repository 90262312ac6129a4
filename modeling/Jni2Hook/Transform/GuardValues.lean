import Jni2Hook.Transform.GuardFrames

/-!
# Guards that answer with a value

A guarded method without a `value_callee` returns the default value in place of its body; with one it returns what the
callee answers, cast to the return type where that is a reference.

* `GuardRun.call_answered_iff`: the call with a value, from one without, up to the store of its longer code.
* `AnswersValue`: the call with a `value_callee` succeeds, fits its array of nodes and leaves the path that is asked
  for.
* `value_guard_answers_iff`: where the call without one succeeds, this is so exactly when the type has few leading
  letters, the arguments leave room in the array, no branch to the front is too far, and the attribute is not too long.
-/

namespace Jni2Hook

open Lib

/-! ## What is asked for -/

/-- The constants of a guarded call with a value of a reference type, in the order in which they are interned. -/
def guardConstants (d : MethodDescriptor) (isStatic : Bool) (owner callee valueCallee : Bytes) : Edit Unit := do
  let ownerIndex ← classFileInternClass owner
  let _ ← classFileInternMethodref ownerIndex callee
    (0x28 :: ((.base .int :: calleeTypes d isStatic).flatMap FieldType.text ++ [0x29, 0x5A]))
  let _ ← classFileInternMethodref ownerIndex valueCallee (text "(I)Ljava/lang/Object;")
  let _ ← classFileInternClass (castName (resultText d.result))
  let _ ← buildEntryFrame d.text isStatic 0
  let _ ← classFileInternUtf8 (text "StackMapTable")
  return ()

/-- The pool has room for what the call needs. -/
def PoolRoom (d : MethodDescriptor) (isStatic : Bool) (owner callee valueCallee : Bytes) (cf : ClassFile) : Prop :=
  ∃ cf', guardConstants d isStatic owner callee valueCallee cf = .ok () cf'

/-- The guarded call with a `value_callee` succeeds, and what it leaves behind starts with the guard and the path that
returns the value of the callee. -/
def AnswersValue (name : Bytes) (d : MethodDescriptor) (isStatic : Bool)
    (owner callee valueCallee : Bytes) (argument : Int)
    (cf : ClassFile) : Prop :=
  ∃ cf' index method stored new guard skip rest,
    classTransformInsertGuardedCall (some name) (some d.text) (some owner) (some callee)
      (some valueCallee) argument cf = .ok () cf' ∧
    findMethod cf name d.text = some (index, method) ∧ codeOf cf' index = some stored ∧ codeGraph stored = .ok new ∧
    new.instructions = entryNodes guard skip ++ rest ∧ (entryNodes guard skip).length ≤ nodeCapacity ∧
    GuardCall cf'.constantPool owner callee argument (d.argumentCount isStatic) guard ∧
    SkipPath cf'.constantPool owner argument d.result (some valueCallee) skip

/-- The brackets and letters `L` a type starts with, which the loop over `value_descriptor` runs through. -/
def leadingLetters (type : Bytes) : Nat := (type.takeWhile fun c => c = 0x5B ∨ c = 0x4C).length

/-! ## A run makes the call succeed -/

theorem insertGuard_eq {index : Nat} {code : AttributeInfo} {editor edited framed : CodeEditor} {descriptor : Bytes}
    {isStatic : Bool} {guard value : List Instruction} {returns : UInt8} {forwarded : UInt16} {body : Instruction}
    {frame : StackMapFrame} {cf frameTree tableTree : ClassFile}
    (hcapacity : (guardNodes guard value returns).length ≤ nodeCapacity)
    (hinsert : codeEditorInsert editor 0 (guardNodes guard value returns)
      (if returns ≠ 0x56 ∧ forwarded < 2 then 2 else forwarded) = (.ok (), edited))
    (hbody : edited.instructions.items[(guardNodes guard value returns).length]? = some body)
    (hframe : buildEntryFrame descriptor isStatic (wrapI4 body.offset) cf = .ok frame frameTree)
    (htable : addFrame (patchBranch edited guard.length (wrapI4 body.offset)) frame frameTree = .ok framed tableTree) :
    insertGuard index code editor descriptor isStatic guard value returns forwarded cf =
      storeCode index framed code tableTree := by
  rw [guardNodes] at hcapacity hinsert hbody
  unfold insertGuard
  dsimp only
  rw [if_neg (Nat.not_lt_of_le hcapacity), run_bind, insertNodesAt_of_ok hinsert]
  dsimp only
  rw [hbody]
  dsimp only
  rw [run_bind, withCause_of_ok hframe]
  dsimp only
  rw [run_bind, htable]

namespace GuardRun

variable {name owner callee : Bytes} {d : MethodDescriptor} {valueCallee : Option Bytes} {argument : Int}
  {cf cf' : ClassFile} (run : GuardRun name d.text owner callee valueCallee argument cf cf')

/-- The call with another value, up to the end, where the code is stored. -/
theorem call_eq {valueCallee : Option Bytes} {value : List Instruction} {valueTree frameTree tableTree : ClassFile}
    {edited framed : CodeEditor} {body : Instruction} {frame : StackMapFrame}
    (hvalued : Jni2Hook.guardedValue run.returnType run.ownerIndex valueCallee argument run.guardTree =
      .ok value valueTree)
    (hcapacity : (guardNodes run.guard value run.returns).length ≤ nodeCapacity)
    (hinsert : codeEditorInsert run.editor 0 (guardNodes run.guard value run.returns)
      (if run.returns ≠ 0x56 ∧ forwardStack run.parameters < 2 then 2
        else forwardStack run.parameters) = (.ok (), edited))
    (hbody : edited.instructions.items[(guardNodes run.guard value run.returns).length]? = some body)
    (hframe : buildEntryFrame d.text run.isStatic (wrapI4 body.offset) valueTree = .ok frame frameTree)
    (htable : addFrame (patchBranch edited run.guard.length (wrapI4 body.offset)) frame frameTree =
      .ok framed tableTree) :
    insertGuardedCall name d.text owner callee valueCallee argument cf =
      storeCode run.index framed run.code tableTree := by
  rw [run.toGuardStart.call_eq, run_bind, hvalued]
  exact insertGuard_eq hcapacity hinsert hbody hframe htable

theorem returns_ne_void (hreference : isReference run.returnType = true) : run.returns ≠ 0x56 := by
  have hre : run.returnType.headD 0 = 0x4C ∨ run.returnType.headD 0 = 0x5B := of_decide_eq_true hreference
  rw [returns]
  rcases hre with h | h <;>
  · rw [h]
    decide

/-! ## The constants -/

/-- The pool has room for the constants one by one. -/
theorem constants {answer : Bytes} (hroom : PoolRoom d run.isStatic owner callee answer cf) :
    ∃ valueRef refTree castIndex valueTree frame frameTree nameIndex nameTree,
      classFileInternMethodref run.ownerIndex answer (text "(I)Ljava/lang/Object;") run.guardTree =
        .ok valueRef refTree ∧
      classFileInternClass (castName (resultText d.result)) refTree = .ok castIndex valueTree ∧
      buildEntryFrame d.text run.isStatic 0 valueTree = .ok frame frameTree ∧
      classFileInternUtf8 (text "StackMapTable") frameTree = .ok nameIndex nameTree := by
  obtain ⟨cf₁, h⟩ := hroom
  have hdescriptor := run.built
  rw [run.parameters_eq] at hdescriptor
  have hguard := run.internGuard
  rw [buildCalleeDescriptor_described hdescriptor] at hguard
  rw [guardConstants, run_bind, run.internOwner] at h
  dsimp only at h
  rw [run_bind, hguard] at h
  obtain ⟨valueRef, refTree, hvalue, h⟩ := exists_of_bind_ok h
  obtain ⟨castIndex, valueTree, hcast, h⟩ := exists_of_bind_ok h
  obtain ⟨frame, frameTree, hframe, h⟩ := exists_of_bind_ok h
  obtain ⟨nameIndex, nameTree, hname, -⟩ := exists_of_bind_ok h
  exact ⟨valueRef, refTree, castIndex, valueTree, frame, frameTree, nameIndex, nameTree, hvalue, hcast, hframe, hname⟩

end GuardRun

/-- The entry frame can be built for any offset. -/
theorem buildEntryFrame_offset {descriptor : Bytes} {isStatic : Bool} {offset : Int} {cf cf' : ClassFile}
    {frame : StackMapFrame} (h : buildEntryFrame descriptor isStatic offset cf = .ok frame cf') (offset' : Int) :
    buildEntryFrame descriptor isStatic offset' cf = .ok { frame with offset := offset' } cf' := by
  unfold buildEntryFrame at h ⊢
  obtain ⟨_, _, hget, h⟩ := exists_of_bind_ok h
  cases hget
  obtain ⟨locals, cf₁, hloop, hpure⟩ := exists_of_bind_ok h
  cases hpure
  rw [run_bind, run_get]
  dsimp only
  rw [run_bind, hloop]
  rfl

/-- The name of a class or array type is not cut off before its end. -/
theorem two_le_length_resultText {result : Option FieldType} (h : isReference (resultText result) = true) :
    2 ≤ (resultText result).length := by
  cases result with
  | none => cases h
  | some type =>
    rw [resultText] at h ⊢
    cases type with
    | base base => cases base <;> cases h
    | object name => simp [FieldType.text]
    | array component =>
      have := List.length_pos_iff.mpr (text_ne_nil component)
      rw [FieldType.text, List.length_cons]
      omega

/-- Other nodes can be inserted where some were, as long as the annotations can be flushed. -/
theorem codeEditorInsert_again {editor edited : CodeEditor} {nodes nodes' : List Instruction} {extraStack : UInt16}
    {written : List AttributeInfo} (hne : nodes ≠ []) (hne' : nodes' ≠ [])
    (h : codeEditorInsert editor 0 nodes extraStack = (.ok (), edited))
    (hat : offsetToIndex editor.instructions (wrapI4 (0 : Nat)) = 0)
    (hflush : typeAnnotationFlush (insertNodes editor 0 nodes').typeAnnotations
      (insertNodes editor 0 nodes').otherAttributes = (.ok (), written)) :
    codeEditorInsert editor 0 nodes' extraStack = (.ok (), { insertNodes editor 0 nodes' with
      otherAttributes := written, maxStack := editor.maxStack + extraStack }) := by
  unfold codeEditorInsert at h ⊢
  rw [if_neg (by simpa using hne)] at h
  rw [if_neg (by simpa using hne')]
  dsimp only at h ⊢
  rw [hat] at h ⊢
  by_cases hstack : editor.maxStack.toNat + extraStack.toNat > 0xFFFF
  · rw [if_neg (by decide), if_pos hstack] at h
    cases h
  by_cases hall : (editor.refs.all fun value => decide (0 ≤ offsetToIndex editor.instructions value)) = false
  · rw [if_neg (by decide), if_neg hstack, if_pos hall] at h
    cases h
  rw [if_neg (by decide), if_neg hstack, if_neg hall, Int.toNat_zero, hflush]
  dsimp only
  rw [maxStack_insertNodes]

theorem size_answerNodes (n : Nat) (argument : Int) (valueRef castIndex : UInt16) :
    extent Instruction.size n (answerNodes argument valueRef castIndex) = n + 9 := rfl

theorem extent_guardNodes (guard value : List Instruction) (returns : UInt8) :
    extent Instruction.size 0 (guardNodes guard value returns) =
      extent Instruction.size (extent Instruction.size 0 guard + 3) value + 1 := by
  rw [guardNodes, extent_append, extent_cons, extent_append]
  rfl

/-! ## The code with a prologue -/

section Prologue

variable {editor : CodeEditor} {guard value : List Instruction} {returns : UInt8} {target : Int}
  (h : Splicing editor 0 (guardNodes guard value returns))

include h

/-- A node of the code is the branch of the prologue, a node without targets, or one of the body. -/
theorem retarget_cases (hguard : ∀ node ∈ guard, node.Sound) (hvalue : ∀ node ∈ value, node.Sound)
    {node : Instruction} (hn : node ∈ ((insertNodes editor 0 (guardNodes guard value returns)).instructions.retarget
      guard.length target).items) :
    (node.operand = .branch target ∧
      node.offset = (insertNodes editor 0 (guardNodes guard value returns)).instructions.start guard.length) ∨
    (node.operand.targets = []) ∨
    ∃ k, (insertNodes editor 0 (guardNodes guard value returns)).instructions.items[
      (guardNodes guard value returns).length + k]? = some node := by
  obtain ⟨i, hi⟩ := List.mem_iff_getElem?.mp hn
  rw [InstructionList.retarget, List.getElem?_modify] at hi
  obtain ⟨old, hold, rfl⟩ := Option.map_eq_some_iff.mp hi
  have hoffset := h.laid_insert.1.offset_eq hold
  by_cases hbranch : guard.length = i
  · rw [if_pos hbranch, hbranch]
    exact .inl ⟨rfl, hoffset⟩
  · rw [if_neg hbranch]
    by_cases hfront : i < (guardNodes guard value returns).length
    · refine .inr (.inl ?_)
      rw [h.item_front, List.getElem?_append_left hfront] at hold
      obtain ⟨fresh, hfresh, rfl⟩ := Option.map_eq_some_iff.mp hold
      by_cases hbefore : i < guard.length
      · rw [guardNodes, List.getElem?_append_left hbefore] at hfresh
        exact (hguard fresh (List.mem_of_getElem? hfresh)).2
      · obtain ⟨j, hj⟩ : ∃ j, i - guard.length = j + 1 := ⟨i - guard.length - 1, by omega⟩
        rw [guardNodes, List.getElem?_append_right (by omega), hj, List.getElem?_cons_succ] at hfresh
        rcases List.mem_append.mp (List.mem_of_getElem? hfresh) with hmem | hmem
        · exact (hvalue fresh hmem).2
        · rw [List.mem_singleton.mp hmem]
          rfl
    · refine .inr (.inr ⟨i - (guardNodes guard value returns).length, ?_⟩)
      rw [Nat.add_sub_cancel' (by omega)]
      exact hold

omit h in
theorem mem_retarget {k : Nat} {node : Instruction}
    (hnode : (insertNodes editor 0 (guardNodes guard value returns)).instructions.items[
      (guardNodes guard value returns).length + k]? = some node) :
    node ∈ ((insertNodes editor 0 (guardNodes guard value returns)).instructions.retarget guard.length
      target).items := by
  refine List.mem_of_getElem? (i := (guardNodes guard value returns).length + k) ?_
  have hne : guard.length ≠ (guardNodes guard value returns).length + k := by
    simp only [guardNodes, List.length_append, List.length_cons]
    omega
  rw [InstructionList.retarget, List.getElem?_modify, hnode]
  exact congrArg some (if_neg hne)

end Prologue

/-- Where the branch and the body stand. -/
theorem Splicing.start_guard {editor : CodeEditor} {guard value : List Instruction} {returns : UInt8}
    (h : Splicing editor 0 (guardNodes guard value returns)) :
    (insertNodes editor 0 (guardNodes guard value returns)).instructions.start guard.length =
      extent Instruction.size 0 guard := by
  rw [h.start_insert, List.take_zero, List.nil_append, guardNodes, List.append_assoc,
    startOf_append_left _ (Nat.le_refl _), startOf_length]

theorem Splicing.start_body {editor : CodeEditor} {guard value : List Instruction} {returns : UInt8}
    (h : Splicing editor 0 (guardNodes guard value returns)) :
    (insertNodes editor 0 (guardNodes guard value returns)).instructions.start (guardNodes guard value returns).length =
      extent Instruction.size (extent Instruction.size 0 guard + 3) value + 1 := by
  rw [h.start_insert, List.take_zero, List.nil_append, startOf_append_left _ (Nat.le_refl _), startOf_length,
    extent_guardNodes]

/-! ## The longer prologue -/

namespace GuardRun

variable {name owner callee : Bytes} {d : MethodDescriptor} {argument : Int} {cf cf' : ClassFile}
  (run : GuardRun name d.text owner callee none argument cf cf')

/-- The nodes of the call with a value in place of the default. -/
def answering (valueRef castIndex : UInt16) : List Instruction :=
  guardNodes run.guard (answerNodes argument valueRef castIndex) run.returns

/-- The stack that the prologue needs. -/
def pushed : UInt16 :=
  if run.returns ≠ 0x56 ∧ forwardStack run.parameters < 2 then 2 else forwardStack run.parameters

theorem value_default (hvalue : run.returns ≠ 0x56) : run.value = [newNode (defaultOpcodeFor run.returns) .none] := by
  have h := run.guardedValue
  generalize run.value = value at h ⊢
  cases h with
  | void hvoid => exact absurd hvoid hvalue
  | constant => rfl

theorem codeLength_framed : run.framed.instructions.codeLength = run.extended.instructions.codeLength := by
  obtain ⟨written, maxStack, table, -, hframed, -⟩ := run.framed_eq
  rw [hframed]
  rfl

theorem sound_answering (valueRef castIndex : UInt16) :
    ∀ node ∈ run.answering valueRef castIndex, node.Sound ∨ node = newNode Opc.ifeq (.branch 0) := by
  intro node hn
  rcases mem_guardNodes hn with hguard | hbranch | hvalue | hreturn
  · exact .inl (run.sound_guard node hguard)
  · exact .inr hbranch
  · refine .inl ?_
    simp only [answerNodes, List.mem_cons, List.not_mem_nil, or_false] at hvalue
    rcases hvalue with rfl | rfl | rfl
    · exact sound_sipush run.fits
    · exact sound_cpIndex _ (by decide)
    · exact sound_cpIndex _ (by decide)
  · rw [hreturn]
    exact .inl (sound_returnOpcodeFor _)

theorem lengthens (hvalue : run.returns ≠ 0x56) (hcode : run.framed.instructions.codeLength + 8 ≤ jvmMaxCodeLength)
    (valueRef castIndex : UInt16) : Lengthens run.editor run.nodes (run.answering valueRef castIndex) 8 := by
  have hlaid := run.splicing.laid_insert.1
  have hlen := hlaid.length_le
  rw [codeLength_framed] at hcode
  unfold jvmMaxCodeLength at hcode
  have hmore : (run.answering valueRef castIndex).length = run.nodes.length + 2 := by
    rw [nodes, run.value_default hvalue]
    simp [answering, guardNodes, answerNodes]
  rw [length_insertNodes] at hlen
  have hroom : (insertNodes run.editor 0 run.nodes).instructions.codeLength + 8 ≤ 0xFFFF := hcode
  refine ⟨run.splicing, ⟨run.splicing.laid, Nat.zero_le _, fun node hn => ?_, fun node hn t ht => ?_,
    run.splicing.named, by omega⟩, run.nodes_ne_nil, ?_, rfl, hroom⟩
  · rcases run.sound_answering valueRef castIndex node hn with hsound | rfl
    · exact hsound.1
    · exact encodable_newNode (by decide) (by constructor <;> omega)
  · rcases run.sound_answering valueRef castIndex node hn with hsound | rfl
    · rw [hsound.2] at ht
      cases ht
    · simpa [newNode, Operand.targets] using ht
  · rw [answering, nodes, extent_guardNodes, extent_guardNodes, run.value_default hvalue, size_answerNodes]
    rfl

end GuardRun

/-! ## The frames of the longer prologue -/

theorem size_typeOf {pool pool' : ConstantPool} {type : FieldType} {v v' : VerificationType} (h : TypeOf pool type v)
    (h' : TypeOf pool' type v') : v'.size = v.size := by
  cases type with
  | base base =>
    cases base <;>
    · rw [h, h']
  | object name =>
    obtain ⟨index, rfl, -⟩ := h
    obtain ⟨index', rfl, -⟩ := h'
    rfl
  | array component =>
    obtain ⟨index, rfl, -⟩ := h
    obtain ⟨index', rfl, -⟩ := h'
    rfl

theorem typesSize_typeOf {pool pool' : ConstantPool} {types : List FieldType} {l l' : List VerificationType}
    (h : List.Forall₂ (TypeOf pool) types l) (h' : List.Forall₂ (TypeOf pool') types l') :
    typesSize l' = typesSize l := by
  induction h generalizing l' with
  | nil =>
    cases h'
    rfl
  | cons hfirst hrest ih =>
    cases h' with
    | cons hfirst' hrest' =>
      have hsizes := ih hrest'
      simp only [typesSize, List.map_cons, List.sum_cons] at hsizes ⊢
      rw [hsizes, size_typeOf hfirst hfirst']

/-- The locals of a method need the same room in every pool. -/
theorem EntryLocals.size_eq {cf cf' : ClassFile} {d : MethodDescriptor} {isStatic : Bool}
    {locals locals' : List VerificationType}
    (h : EntryLocals cf d isStatic locals) (h' : EntryLocals cf' d isStatic locals') :
    typesSize locals' = typesSize locals := by
  obtain ⟨types, rfl, hall⟩ := h
  obtain ⟨types', rfl, hall'⟩ := h'
  have hrest := typesSize_typeOf hall hall'
  cases isStatic with
  | true => exact hrest
  | false =>
    simp only [typesSize, List.map_append, List.sum_append] at hrest ⊢
    rw [hrest]
    rfl

/-- The frame at the body is put into any table with room for it. -/
theorem insertFrame_front {editor : CodeEditor} {nodes : List Instruction} (h : Splicing editor 0 nodes)
    (hne : nodes ≠ []) {before behind : List StackMapFrame} (hsplit : tableEntries editor.stackMap = before ++ behind)
    (hbefore : before = [] ∨ ∃ first, before = [first] ∧ first.offset = 0) (hbehind : ∀ x ∈ behind, x.offset ≠ 0)
    (hlen : (tableEntries editor.stackMap).length ≠ classfileMaxCount) (locals : List VerificationType) :
    insertFrame (tableEntries (insertNodes editor 0 nodes).stackMap) (behindFrame editor nodes locals) =
      .ok (before.map (frontFrame editor nodes) ++ behindFrame editor nodes locals ::
        behind.map (frontFrame editor nodes)) := by
  have hsides {x : StackMapFrame} (hx : x ∈ before ++ behind) :=
    @Splicing.frame_sides _ _ h hne x (by rw [hsplit]; exact hx)
  rw [tableEntries_front, hsplit, List.map_append]
  rw [hsplit] at hlen
  obtain ⟨table, htable⟩ : ∃ table, insertFrame
      (before.map (frontFrame editor nodes) ++ behind.map (frontFrame editor nodes))
      (behindFrame editor nodes locals) = .ok table := by
    unfold insertFrame
    rw [if_neg (by simpa using hlen)]
    dsimp only
    split
    · exact ⟨_, rfl⟩
    · split
      · exact ⟨_, rfl⟩
      · exact ⟨_, rfl⟩
  rw [htable]
  refine congrArg Except.ok (insertFrame_between (fun x hx => ?_) (fun x hx => ?_) htable).1
  · obtain ⟨y, hy, rfl⟩ := List.mem_map.mp hx
    refine (hsides (List.mem_append_left _ hy)).2.1 ?_
    rcases hbefore with rfl | ⟨first, rfl, hzero⟩
    · cases hy
    · rw [List.mem_singleton.mp hy]
      exact hzero
  · obtain ⟨y, hy, rfl⟩ := List.mem_map.mp hx
    exact (hsides (List.mem_append_right _ hy)).2.2 (hbehind y hy)

/-- The frame goes into the table that is there, or a new table is named. -/
theorem addFrame_of_ok {editor : CodeEditor} {frame : StackMapFrame} {frames : List StackMapFrame}
    {cf nameTree : ClassFile}
    {nameIndex : UInt16} (hframes : insertFrame (tableEntries editor.stackMap) frame = .ok frames)
    (hname : classFileInternUtf8 (text "StackMapTable") cf = .ok nameIndex nameTree) :
    ∃ index tree, addFrame editor frame cf = .ok { editor with stackMap := some ⟨index, frames⟩ } tree := by
  rw [addFrame, run_bind, hframes]
  cases htable : editor.stackMap with
  | some table => exact ⟨table.nameIndex, cf, rfl⟩
  | none =>
    refine ⟨nameIndex, nameTree, ?_⟩
    show (withCause _ >>= _) cf = _
    rw [run_bind, withCause_of_ok hname]
    rfl

/-! ## The call with a value -/

namespace GuardRun

variable {name owner callee : Bytes} {d : MethodDescriptor} {argument : Int} {cf cf' : ClassFile}
  (run : GuardRun name d.text owner callee none argument cf cf')

/-- The code with the longer prologue, its frame at the body. -/
def answered (valueRef castIndex nameIndex : UInt16) (locals : List VerificationType)
    (before behind : List StackMapFrame)
    (written : List AttributeInfo) (maxStack : UInt16) : CodeEditor :=
  { insertNodes run.editor 0 (run.answering valueRef castIndex) with
    otherAttributes := written, maxStack := maxStack
    stackMap := some ⟨nameIndex, before.map (frontFrame run.editor (run.answering valueRef castIndex)) ++
      behindFrame run.editor (run.answering valueRef castIndex) locals ::
        behind.map (frontFrame run.editor (run.answering valueRef castIndex))⟩
    instructions := (insertNodes run.editor 0 (run.answering valueRef castIndex)).instructions.retarget run.guard.length
      ((insertNodes run.editor 0 (run.answering valueRef castIndex)).instructions.start
        (run.answering valueRef castIndex).length) }

section Answered

variable (hvalue : run.returns ≠ 0x56) (hcode : run.framed.instructions.codeLength + 8 ≤ jvmMaxCodeLength)
  {valueRef castIndex : UInt16}

include hvalue hcode

/-- The first instruction of the body behind the longer prologue. -/
theorem body_answering : ∃ body, (insertNodes run.editor 0 (run.answering valueRef castIndex)).instructions.items[
      (run.answering valueRef castIndex).length]? = some body ∧
    wrapI4 body.offset = (insertNodes run.editor 0 (run.answering valueRef castIndex)).instructions.start
      (run.answering valueRef castIndex).length := by
  have hlong := run.lengthens hvalue hcode valueRef castIndex
  obtain ⟨hl, hlimit⟩ := hlong.splicing.laid_insert
  have hle := hl.start_le (j := (run.answering valueRef castIndex).length)
  have hfirst : 0 < run.editor.instructions.items.length := by
    have hbody := (List.getElem?_eq_some_iff.mp run.bodyAt).1
    obtain ⟨-, written, maxStack, -, hedited⟩ := run.edited_eq
    rw [hedited] at hbody
    have hbody : run.nodes.length < (insertNodes run.editor 0 run.nodes).instructions.items.length := hbody
    rw [length_insertNodes] at hbody
    omega
  obtain ⟨body, hbody⟩ : ∃ body, (insertNodes run.editor 0 (run.answering valueRef castIndex)).instructions.items[
      (run.answering valueRef castIndex).length]? = some body :=
    ⟨_, List.getElem?_eq_getElem (by rw [length_insertNodes]; omega)⟩
  refine ⟨body, hbody, ?_⟩
  rw [hl.offset_eq hbody]
  exact wrapI4_of_fits ⟨by omega, by omega⟩

theorem laid_answered {nameIndex : UInt16} {locals : List VerificationType} {before behind : List StackMapFrame}
    {written : List AttributeInfo} {maxStack : UInt16} :
    (run.answered valueRef castIndex nameIndex locals before behind written maxStack).instructions.Laid ∧
    (run.answered valueRef castIndex nameIndex locals before behind written maxStack).instructions.codeLength =
      run.framed.instructions.codeLength + 8 := by
  have hlong := run.lengthens hvalue hcode valueRef castIndex
  obtain ⟨hl, hlimit⟩ := hlong.splicing.laid_insert
  have hle := hl.start_le (j := (run.answering valueRef castIndex).length)
  obtain ⟨node, hnode, hbranch⟩ : ∃ node, (insertNodes run.editor 0
    (run.answering valueRef castIndex)).instructions.items[
      run.guard.length]? = some node ∧ node.operand = .branch 0 := by
    refine ⟨{ newNode Opc.ifeq (.branch 0) with
      offset := (insertNodes run.editor 0 (run.answering valueRef castIndex)).instructions.start run.guard.length }, ?_,
        rfl⟩
    rw [hlong.splicing.item_front]
    simp [answering, guardNodes]
  refine ⟨laid_retarget hnode hbranch hl ⟨by omega, by omega⟩, ?_⟩
  rw [codeLength_framed]
  exact hlong.codeLength_eq

/-- The branches of the longer code reach their targets unless one leads to the front. -/
theorem reaches_answered {nameIndex : UInt16} {locals : List VerificationType} {before behind : List StackMapFrame}
    {written : List AttributeInfo} {maxStack : UInt16} :
    (∀ node ∈ (run.answered valueRef castIndex nameIndex locals before behind written maxStack).instructions.items,
      node.Reaches) ↔
    ∀ node ∈ run.framed.instructions.items, node.operand = .branch 0 → node.offset + 8 ≤ 2 ^ 15 := by
  have hlong := run.lengthens hvalue hcode valueRef castIndex
  obtain ⟨⟨bytes, hbytes⟩, -⟩ := codeEditorStore_ok run.storedCode
  obtain ⟨written₀, maxStack₀, table, -, hframed, -⟩ := run.framed_eq
  have hlimit := (run.splicing.laid_insert).2
  have hreaches := (instructionListEncode_iff run.laid_framed (by rw [codeLength_framed]; exact hlimit)).mp
    ⟨bytes, hbytes⟩
  have hinstructions : run.framed.instructions = (insertNodes run.editor 0 run.nodes).instructions.retarget
      run.guard.length (wrapI4 run.body.offset) := by rw [hframed]
  have hpos := @InstructionList.start_lt (insertNodes run.editor 0 run.nodes).instructions 0 run.nodes.length
    (List.length_pos_iff.mpr run.nodes_ne_nil) (by rw [length_insertNodes]; omega)
  constructor
  · intro hall node hn hzero
    rw [hinstructions] at hn hreaches
    have hnode := hreaches node hn
    rcases retarget_cases run.splicing run.sound_guard (run.guardedValue.sound run.fits) hn
      with ⟨hbranch, -⟩ | htargets | ⟨k, hk⟩
    · rw [hbranch, Operand.branch.injEq, run.bodyOffset] at hzero
      omega
    · rw [hzero] at htargets
      cases htargets
    · obtain ⟨node', hnode'⟩ := (hlong.item_iff k).mp ⟨node, hk⟩
      exact (hlong.reaches_iff hk hnode' hnode).mp (hall node' (mem_retarget hnode')) hzero
  · intro hall node hn
    have hsound : ∀ x ∈ answerNodes argument valueRef castIndex, x.Sound := by
      intro x hx
      rcases run.sound_answering valueRef castIndex x
        (by
          simp only [answering, guardNodes, List.mem_append, List.mem_cons]
          exact .inr (.inr (.inl hx))) with hs | rfl
      · exact hs
      · simp [answerNodes, newNode, Opc.ifeq, Opc.sipush, Opc.invokestatic, Opc.checkcast] at hx
    rcases retarget_cases hlong.splicing run.sound_guard hsound hn with ⟨hbranch, hoffset⟩ | htargets | ⟨k, hk⟩
    · -- the branch of the prologue goes over 13 bytes
      have hstart := hlong.splicing.start_guard
      have hbody := hlong.splicing.start_body
      rw [size_answerNodes] at hbody
      change (insertNodes run.editor 0 (run.answering valueRef castIndex)).instructions.start
        (run.answering valueRef castIndex).length = _ at hbody
      unfold Instruction.Reaches
      rw [hbranch, hoffset, hstart, hbody]
      dsimp only
      constructor <;> omega
    · unfold Instruction.Reaches
      cases hoperand : node.operand with
      | branch target =>
        rw [hoperand] at htargets
        cases htargets
      | branchWide target =>
        rw [hoperand] at htargets
        cases htargets
      | _ => trivial
    · obtain ⟨old, hold⟩ := (hlong.item_iff k).mpr ⟨node, hk⟩
      have hmem : old ∈ run.framed.instructions.items := by
        rw [hinstructions]
        exact mem_retarget hold
      exact (hlong.reaches_iff hold hk (hreaches old hmem)).mpr (hall old hmem)

end Answered

theorem length_answering (valueRef castIndex : UInt16) :
    (run.answering valueRef castIndex).length = d.argumentCount run.isStatic + 7 := by
  have hguard := run.length_guardPath
  rw [guardPath, List.length_map] at hguard
  simp only [answering, guardNodes, answerNodes, List.length_append, List.length_cons, List.length_nil, hguard]

/-- With room in the pool the call goes as far as to store the longer code, whose tables take the room of those that
were stored. -/
theorem call_answered (hcount : cf.constantPool.count ≤ classfileMaxCount)
    (hreads : run.returnType = resultText d.result) (hreference : isReference run.returnType = true)
    (hlength : run.returnType.length < 512) (harguments : d.argumentCount run.isStatic ≤ 63) {letters : Bytes}
    (hletters : valueLetters run.returnType 3 = some letters)
    {answer : Bytes} (hroom : PoolRoom d run.isStatic owner callee answer cf)
    (hcode : run.framed.instructions.codeLength + 8 ≤ jvmMaxCodeLength) :
    ∃ valueRef castIndex nameIndex locals before behind written maxStack tree,
      insertGuardedCall name d.text owner callee (some answer) argument cf = storeCode run.index
        (run.answered valueRef castIndex nameIndex locals before behind written maxStack) run.code tree ∧
      SameTables run.framed (run.answered valueRef castIndex nameIndex locals before behind written maxStack) := by
  have hvalue := run.returns_ne_void hreference
  have hnamed : 2 ≤ run.returnType.length := by
    rw [hreads] at hreference ⊢
    exact two_le_length_resultText hreference
  obtain ⟨valueRef, refTree, castIndex, valueTree, frame, frameTree, nameIndex, nameTree, href, hcast, hframe, hname⟩ :=
    run.constants hroom
  have hcapacity : (run.answering valueRef castIndex).length ≤ nodeCapacity := by
    rw [run.length_answering, nodeCapacity]
    omega
  have hlong := run.lengthens hvalue hcode valueRef castIndex
  obtain ⟨written₀, maxStack₀, table₀, hflush₀, hframed, -⟩ := run.framed_eq
  obtain ⟨table, locals₀, before, behind, htable, -, hlocals₀, hsplit, hentries, hbefore, hbehind, hlen, -⟩ :=
    run.table_split
  obtain ⟨written, hflush, hothers⟩ := hlong.flush hflush₀
  obtain ⟨body, hbody, hoffset⟩ := @GuardRun.body_answering _ _ _ _ _ _ _ run hvalue hcode valueRef castIndex
  -- the frame at the body
  obtain ⟨-, locals, hlocals, hentry⟩ := buildEntryFrame_ok (buildEntryFrame_offset hframe (wrapI4 body.offset))
  have hframe' := buildEntryFrame_offset hframe (wrapI4 body.offset)
  rw [hlocals, hoffset] at hframe'
  have hinserted := codeEditorInsert_again run.nodes_ne_nil hlong.filled' run.inserted
    (hlong.long.laid.offsetToIndex_eq (j := 0) (hlong.long.laid.names_iff.mpr ⟨Nat.zero_le _, rfl⟩) (by
      have := hlong.long.bound
      omega)) hflush
  have hframes := insertFrame_front hlong.splicing hlong.filled' hsplit hbefore hbehind hlen locals
  obtain ⟨index, tree, htabled⟩ := @addFrame_of_ok (patchBranch { insertNodes run.editor 0
    (run.answering valueRef castIndex) with otherAttributes := written, maxStack := run.editor.maxStack + run.pushed }
      run.guard.length (wrapI4 body.offset)) _ _ _ _ _ hframes hname
  have hgrown : valueTree.constantPool.count ≤ classfileMaxCount := by
    have hcount' := (run.interns_owner.trans run.interns_guard).count hcount
    exact (internClass_ok hcast).1.count ((internMethodref_steps href).1.count hcount')
  refine ⟨valueRef, castIndex, index, locals, before, behind, written, run.editor.maxStack + run.pushed, tree,
    run.call_eq (guardedValue_of_ok hreference hletters hlength (fun hshort => absurd hshort.2 (by omega)) href
      (by rw [hreads]; exact hcast)) hcapacity
      hinserted hbody (by rw [hoffset]; exact hframe') ?_, ?_⟩
  · rw [hoffset] at htabled ⊢
    exact htabled
  · obtain ⟨-, hwritten⟩ := codeEditorStore_ok run.storedCode
    obtain ⟨w, hw⟩ := hwritten table htable
    rw [hentries] at hw
    obtain ⟨w', hw', hbytes⟩ := hlong.frames (fun x hx => by rw [hsplit]; exact hx) hbefore hbehind
      ((hlocals₀ hcount).size_eq (hentry hgrown)) hw
    refine ⟨?_, ?_, ?_, ?_, .inr ⟨table, _, w, w', htable, rfl, by rw [hentries]; exact hw, hw', hbytes⟩, ?_⟩
    · rw [hframed]
      exact (exceptions_insertNodes ..).trans (exceptions_insertNodes ..).symm
    · rw [hframed]
      exact (lineNumbers_insertNodes ..).trans (lineNumbers_insertNodes ..).symm
    · rw [hframed]
      exact (locals_insertNodes ..).trans (locals_insertNodes ..).symm
    · rw [hframed]
      exact (localTypes_insertNodes ..).trans (localTypes_insertNodes ..).symm
    · rw [hframed]
      exact hothers

theorem codeInstructions_stored : codeInstructions run.stored = .ok run.framed.instructions := by
  obtain ⟨bytecode, attributes, hencode, -, -, hparse⟩ :=
    codeAttributeParse_of_store run.exceptions_framed run.others_framed run.storedCode
  rw [codeInstructions, bind_of_ok hparse]
  exact (parse_of_encode run.laid_framed hencode).1

/-- The call with a value succeeds exactly when the branches to the front still reach it and the attribute is not too
long. -/
theorem call_answered_iff (hcount : cf.constantPool.count ≤ classfileMaxCount)
    (hreads : run.returnType = resultText d.result) (hreference : isReference run.returnType = true)
    (hlength : run.returnType.length < 512) (harguments : d.argumentCount run.isStatic ≤ 63) {letters : Bytes}
    (hletters : valueLetters run.returnType 3 = some letters)
    {answer : Bytes} (hroom : PoolRoom d run.isStatic owner callee answer cf)
    (hcode : run.framed.instructions.codeLength + 8 ≤ jvmMaxCodeLength) :
    (∃ cf₁, insertGuardedCall name d.text owner callee (some answer) argument cf = .ok () cf₁) ↔
      (∀ node ∈ run.framed.instructions.items, node.operand = .branch 0 → node.offset + 8 ≤ 2 ^ 15) ∧
        run.stored.attributeLength.toNat + 8 ≤ 0xFFFFFFFF := by
  have hvalue := run.returns_ne_void hreference
  obtain ⟨valueRef, castIndex, nameIndex, locals, before, behind, written, maxStack, tree, hcall, htables⟩ :=
    run.call_answered hcount hreads hreference hlength harguments hletters hroom hcode
  obtain ⟨hlaid, hlonger⟩ := @GuardRun.laid_answered _ _ _ _ _ _ _ run hvalue hcode valueRef castIndex nameIndex locals
    before behind written maxStack
  obtain ⟨⟨bytes, hbytes⟩, -⟩ := codeEditorStore_ok run.storedCode
  have hlength₀ := (parse_of_encode run.laid_framed hbytes).2
  have hencode := instructionListEncode_iff hlaid (by rw [hlonger]; exact hcode)
  rw [run.reaches_answered hvalue hcode] at hencode
  have hstore {bytes' : Bytes} (hbytes' : instructionListEncode (run.answered valueRef castIndex nameIndex locals before
      behind written maxStack).instructions = .ok bytes') : (∃ stored', codeEditorStore (run.answered valueRef castIndex
        nameIndex locals before behind written maxStack) run.code = .ok stored') ↔
          run.stored.attributeLength.toNat + 8 ≤ 0xFFFFFFFF := by
    have hlength' := (parse_of_encode hlaid hbytes').2
    rw [codeEditorStore_same_iff htables run.storedCode hbytes hbytes']
    omega
  rw [hcall]
  constructor
  · rintro ⟨cf₁, h⟩
    obtain ⟨stored', hstored', -⟩ := storeCode_ok h
    obtain ⟨⟨bytes', hbytes'⟩, -⟩ := codeEditorStore_ok hstored'
    exact ⟨hencode.mp ⟨bytes', hbytes'⟩, (hstore hbytes').mp ⟨stored', hstored'⟩⟩
  · rintro ⟨hbranches, hsize⟩
    obtain ⟨bytes', hbytes'⟩ := hencode.mpr hbranches
    obtain ⟨stored', hstored'⟩ := (hstore hbytes').mpr hsize
    refine ⟨storedAt tree run.index stored', ?_⟩
    rw [storeCode, run_bind, hstored']
    rfl

end GuardRun

/-! ## The letters of the type -/

theorem valueLetters_iff : ∀ {type : Bytes} (used : Nat), (∃ c ∈ type, c ≠ 0x5B ∧ c ≠ 0x4C) →
    ((∃ letters, valueLetters type used = some letters) ↔ used + leadingLetters type ≤ 6)
  | [], _, h => by
    obtain ⟨c, hc, -⟩ := h
    cases hc
  | c :: rest, used, h => by
    rw [valueLetters, leadingLetters]
    by_cases hletter : c = 0x5B ∨ c = 0x4C
    · rw [List.takeWhile_cons_of_pos (by simpa using hletter), List.length_cons]
      have hrest : ∃ b ∈ rest, b ≠ 0x5B ∧ b ≠ 0x4C := by
        obtain ⟨b, hb, hother⟩ := h
        rcases List.mem_cons.mp hb with rfl | hb
        · exact absurd hletter (fun hl => hl.elim hother.1 hother.2)
        · exact ⟨b, hb, hother⟩
      have ih := valueLetters_iff (used + 1) hrest
      rw [leadingLetters] at ih
      have hnot : ¬(c ≠ 0x5B ∧ c ≠ 0x4C) := fun hc => hletter.elim hc.1 hc.2
      by_cases hfull : used + 1 ≥ 8
      · rw [if_pos hfull]
        refine ⟨fun hl => ?_, fun hle => by omega⟩
        obtain ⟨_, hl⟩ := hl
        cases hl
      · rw [if_neg hfull, if_neg hnot, show used + ((List.takeWhile
          (fun c => decide (c = 0x5B ∨ c = 0x4C)) rest).length + 1) =
          used + 1 + (List.takeWhile (fun c => decide (c = 0x5B ∨ c = 0x4C)) rest).length by omega, ← ih]
        constructor
        · rintro ⟨letters, hl⟩
          obtain ⟨more, hmore, -⟩ := Option.map_eq_some_iff.mp hl
          exact ⟨more, hmore⟩
        · rintro ⟨more, hmore⟩
          exact ⟨c :: more, by rw [hmore]; rfl⟩
    · have hother : c ≠ 0x5B ∧ c ≠ 0x4C := not_or.mp hletter
      rw [List.takeWhile_cons_of_neg (by simpa using hletter), if_pos hother]
      by_cases hfull : used + 1 ≥ 8
      · rw [if_pos hfull]
        refine ⟨fun hl => ?_, fun hle => by simp only [List.length_nil] at hle; omega⟩
        obtain ⟨_, hl⟩ := hl
        cases hl
      · rw [if_neg hfull]
        exact ⟨fun _ => by simp only [List.length_nil]; omega, fun _ => ⟨[c], rfl⟩⟩

/-- A type goes on behind its leading letters. -/
theorem exists_other_letter (type : FieldType) : ∃ c ∈ type.text, c ≠ 0x5B ∧ c ≠ 0x4C := by
  induction type with
  | base base => exact ⟨base.letter, List.mem_singleton_self _, by cases base <;> decide⟩
  | object name => exact ⟨0x3B, by simp [FieldType.text], by decide⟩
  | array component ih =>
    obtain ⟨c, hc, hother⟩ := ih
    exact ⟨c, List.mem_cons_of_mem _ hc, hother⟩

/-! ## Values -/

/-- The prologue is told by its branch, so a body starts with it in one way. -/
theorem entryNodes_unique {guard skip guard' skip' rest rest' : List (BodyInstruction (Option Nat))}
    (h : entryNodes guard skip ++ rest = entryNodes guard' skip' ++ rest') (hguard : guard.length = guard'.length) :
    guard = guard' ∧ skip = skip' := by
  simp only [entryNodes, List.append_assoc, List.cons_append] at h
  obtain ⟨hg, htail⟩ := List.append_inj h hguard
  obtain ⟨hbranch, hskip⟩ := List.cons.inj htail
  have hlen : skip.length = skip'.length := by
    simp only [entryBranch, BodyInstruction.mk.injEq, List.cons.injEq, Option.some.injEq, and_true, true_and] at hbranch
    omega
  exact ⟨hg, (List.append_inj hskip hlen).1⟩

/-- A call with a `value_callee` that succeeds leaves what is asked for exactly when the return type was read off the
descriptor and the array of nodes was not too short. -/
theorem GuardRun.answersValue_iff {name owner callee answer : Bytes} {d : MethodDescriptor} {argument : Int}
    {cf cf' : ClassFile} (run : GuardRun name d.text owner callee (some answer) argument cf cf')
    (h : insertGuardedCall name d.text owner callee (some answer) argument cf = .ok () cf')
    (hcount : cf.constantPool.count ≤ classfileMaxCount) :
    AnswersValue name d run.isStatic owner callee answer argument cf ↔
      ReadsResult d (some answer) ∧ (entryNodes run.guardPath run.skipPath).length ≤ nodeCapacity := by
  obtain ⟨maxStack, hgraph, -⟩ := run.graph_stored
  rw [run.prologue_eq] at hgraph
  rw [← run.skipPath_iff hcount]
  constructor
  · rintro ⟨cf₁, index, method, stored, new, guard, skip, rest, hcall, hfind, hcode, hnew, hstarts,
      hcapacity, hguard, hskip⟩
    have hsame := h.symm.trans hcall
    obtain rfl : cf' = cf₁ := by
      cases hsame
      rfl
    rw [run.findMethod] at hfind
    cases hfind
    rw [run.codeOf_after] at hcode
    cases hcode
    rw [hgraph] at hnew
    cases hnew
    obtain ⟨rfl, rfl⟩ := entryNodes_unique (hstarts.symm.trans instructions_entry)
      (hguard.length_eq.trans run.length_guardPath.symm)
    rw [run.pool_after] at hskip
    exact ⟨hskip, hcapacity⟩
  · rintro ⟨hskip, hcapacity⟩
    refine ⟨cf', run.index, run.method, run.stored, _, run.guardPath, run.skipPath, _, h,
      run.findMethod, run.codeOf_after, hgraph, instructions_entry, hcapacity, ?_, ?_⟩
    · rw [run.pool_after]
      exact run.guardCall hcount
    · rw [run.pool_after]
      exact hskip

/-- What the return type, the arguments and the code without a value have to be like for a value: few leading letters
and a type that is read off the descriptor, room for the nodes, branches to the front that still reach it, and an
attribute that is not too long. -/
structure ValueFits (d : MethodDescriptor) (isStatic : Bool) (stored : AttributeInfo)
    (list : InstructionList) : Prop where
  letters : leadingLetters (resultText d.result) ≤ 3
  read : scannedReturn d.text = resultText d.result
  arguments : d.argumentCount isStatic ≤ 63
  branches : ∀ node ∈ list.items, node.operand = .branch 0 → node.offset + 8 ≤ 2 ^ 15
  length : stored.attributeLength.toNat + 8 ≤ 0xFFFFFFFF

theorem readsResult_reference {d : MethodDescriptor} (h : isReference (resultText d.result) = true) (answer : Bytes) :
    ReadsResult d (some answer) ↔ scannedReturn d.text = resultText d.result :=
  ⟨fun hreads => hreads.2 h, fun heq => ⟨by rw [heq], fun _ => heq⟩⟩

namespace GuardRun

variable {name owner callee answer : Bytes} {d : MethodDescriptor} {argument : Int} {cf cf' : ClassFile}

theorem isStatic_eq {valueCallee valueCallee' : Option Bytes} {cf₁ cf₂ : ClassFile}
    (run : GuardRun name d.text owner callee valueCallee argument cf cf₁)
    (other : GuardRun name d.text owner callee valueCallee' argument cf cf₂) : other.isStatic = run.isStatic := by
  have hsame := run.findMethod.symm.trans other.findMethod
  rw [Option.some.injEq, Prod.mk.injEq] at hsame
  rw [isStatic, isStatic, hsame.2]

variable (run : GuardRun name d.text owner callee (some answer) argument cf cf')

theorem letters_of_reference (hreference : isReference run.returnType = true) :
    ∃ letters, valueLetters run.returnType 3 = some letters := by
  have hne := run.returns_ne_void hreference
  have hvalue := run.guardedValue
  generalize run.value = value at hvalue
  cases hvalue with
  | void hvoid => exact absurd hvoid hne
  | call hcalled hcall =>
    cases hcall with
    | primitive _ hletters => exact ⟨_, hletters⟩
    | reference _ hletters => exact ⟨_, hletters⟩

/-- The nodes of the prologue. -/
theorem length_prologue_answer (hvoid : run.returns ≠ 0x56) : (entryNodes run.guardPath run.skipPath).length =
    d.argumentCount run.isStatic + if isReference run.returnType then 7 else 6 := by
  have hvalue := run.guardedValue
  rw [length_entryNodes, run.length_guardPath, skipPath]
  generalize run.value = value at hvalue ⊢
  cases hvalue with
  | void h => exact absurd h hvoid
  | call hcalled hcall =>
    cases hcall with
    | primitive hprimitive =>
      rw [hprimitive]
      rfl
    | reference hreference =>
      rw [hreference]
      rfl

/-- The letters and the nodes of a value of a reference type that was read off the descriptor. -/
theorem capacity_iff (hreference : isReference (resultText d.result) = true)
    (hread : scannedReturn d.text = resultText d.result) :
    (∃ letters, valueLetters (resultText d.result) 3 = some letters) ∧
      ((entryNodes run.guardPath run.skipPath).length ≤ nodeCapacity ↔ d.argumentCount run.isStatic ≤ 63) := by
  have hreturn := run.returnType_eq.trans hread
  rw [← hreturn] at hreference ⊢
  refine ⟨run.letters_of_reference hreference, ?_⟩
  rw [run.length_prologue_answer (run.returns_ne_void hreference), hreference, if_pos rfl]
  unfold nodeCapacity
  omega

end GuardRun

/-- **Guards answer with a value of the return type.** Where a method with a reference type of less than 512 bytes can
be guarded without a `value_callee`, the pool has room and the code stays within its limit, it can be guarded with one,
with the path that is asked for, exactly when `ValueFits`. Of a primitive type the path is right exactly when its letter
stands behind the first closing parenthesis. -/
theorem value_guard_answers_iff {name owner callee valueCallee : Bytes} {d : MethodDescriptor} {argument : Int}
    {cf : ClassFile} (hcount : cf.constantPool.count ≤ classfileMaxCount) :
    (∀ type cf₀, d.result = some type → type.valueType = .reference → type.text.length < 512 →
      classTransformInsertGuardedCall (some name) (some d.text) (some owner)
        (some callee) none argument cf = .ok () cf₀ →
      ∃ index method stored list, findMethod cf name d.text = some (index, method) ∧ codeOf cf₀ index = some stored ∧
        codeInstructions stored = .ok list ∧
        (PoolRoom d (hasFlag method.accessFlags Acc.static_) owner callee valueCallee cf →
          list.codeLength + 8 ≤ jvmMaxCodeLength →
          (AnswersValue name d (hasFlag method.accessFlags Acc.static_) owner callee valueCallee argument cf ↔
            ValueFits d (hasFlag method.accessFlags Acc.static_) stored list))) ∧
    (∀ base cf', d.result = some (.base base) →
      classTransformInsertGuardedCall (some name) (some d.text) (some owner) (some callee)
        (some valueCallee) argument cf = .ok () cf' →
      ∃ index method, findMethod cf name d.text = some (index, method) ∧
        (AnswersValue name d (hasFlag method.accessFlags Acc.static_) owner callee valueCallee argument cf ↔
          (scannedReturn d.text).headD 0 = base.letter)) := by
  constructor
  · intro type cf₀ hresult htype hshort h
    obtain ⟨run⟩ := insertGuardedCall_ok h
    have hreference : isReference (resultText d.result) = true := by
      rw [hresult]
      exact (isReference_type type).mpr htype
    refine ⟨run.index, run.method, run.stored, run.framed.instructions, run.findMethod, run.codeOf_after,
      run.codeInstructions_stored, fun hroom hcode => ?_⟩
    have hletters : (∃ letters, valueLetters (resultText d.result) 3 = some letters) ↔
        leadingLetters (resultText d.result) ≤ 3 := by
      rw [valueLetters_iff 3 (by rw [hresult]; exact exists_other_letter type)]
      omega
    -- both directions go through the call that stores the longer code
    have hcall (hread : scannedReturn d.text = resultText d.result) (harguments : d.argumentCount run.isStatic ≤ 63)
        {letters : Bytes} (hsome : valueLetters (resultText d.result) 3 = some letters) := by
      rw [← hread, ← run.returnType_eq] at hreference hsome
      exact run.call_answered_iff hcount (run.returnType_eq.trans hread) hreference
        (by rw [run.returnType_eq, hread, hresult]; exact hshort) harguments hsome hroom hcode
    constructor
    · intro hanswers
      obtain ⟨cf', -, -, -, -, -, -, -, hcalled, -⟩ := id hanswers
      obtain ⟨answered⟩ := insertGuardedCall_ok hcalled
      have hiff := answered.answersValue_iff hcalled hcount
      rw [run.isStatic_eq answered] at hiff
      obtain ⟨hreads, hnodes⟩ := hiff.mp hanswers
      have hread := (readsResult_reference hreference valueCallee).mp hreads
      obtain ⟨⟨letters, hsome⟩, hcapacity⟩ := answered.capacity_iff hreference hread
      rw [run.isStatic_eq answered] at hcapacity
      have harguments := hcapacity.mp hnodes
      obtain ⟨hbranches, hlength⟩ := (hcall hread harguments hsome).mp ⟨cf', hcalled⟩
      exact ⟨hletters.mp ⟨letters, hsome⟩, hread, harguments, hbranches, hlength⟩
    · intro hfits
      obtain ⟨letters, hsome⟩ := hletters.mpr hfits.letters
      obtain ⟨cf', hcalled⟩ := (hcall hfits.read hfits.arguments hsome).mpr ⟨hfits.branches, hfits.length⟩
      obtain ⟨answered⟩ := insertGuardedCall_ok hcalled
      obtain ⟨-, hcapacity⟩ := answered.capacity_iff hreference hfits.read
      have hiff := answered.answersValue_iff hcalled hcount
      rw [run.isStatic_eq answered] at hiff hcapacity
      exact hiff.mpr ⟨(readsResult_reference hreference valueCallee).mpr hfits.read, hcapacity.mpr hfits.arguments⟩
  · intro base cf' hresult h
    obtain ⟨run⟩ := insertGuardedCall_ok h
    refine ⟨run.index, run.method, run.findMethod, ?_⟩
    have hprimitive : isReference (FieldType.base base).text = false := by cases base <;> rfl
    have hreads : ReadsResult d (some valueCallee) ↔ (scannedReturn d.text).headD 0 = base.letter := by
      rw [ReadsResult, hresult]
      exact ⟨fun hr => hr.1, fun hl => ⟨hl, fun hre => by cases hprimitive.symm.trans hre⟩⟩
    refine (run.answersValue_iff h hcount).trans ⟨fun ha => hreads.mp ha.1, fun hl => ⟨hreads.mpr hl, ?_⟩⟩
    have hhead : run.returnType.headD 0 = base.letter := by
      rw [run.returnType_eq]
      exact hl
    have hother : isReference run.returnType = false := by
      rw [isReference, hhead]
      cases base <;> rfl
    have hvoid : run.returns ≠ 0x56 := by
      rw [GuardRun.returns, hhead]
      cases base <;> decide
    have hargs := run.argumentCount_le
    rw [run.length_prologue_answer hvoid, hother]
    unfold parameterCapacity at hargs
    unfold nodeCapacity
    simp only [Bool.false_eq_true, if_false]
    omega

/-- The guard `G.g` before the body of `m`, without a value. -/
def guardWithout (d : MethodDescriptor) : Transform Unit :=
  classTransformInsertGuardedCall (some (text "m")) (some d.text) (some (text "G")) (some (text "g")) none 7

/-- What the call without a value leaves in a method: the length of its attribute and of its code, and whether a branch
leads to the front. -/
def guardedSize (d : MethodDescriptor) (cf : ClassFile) : Option (Nat × Option (Nat × Bool)) :=
  (codeOf (endState (guardWithout d) cf) 0).map fun stored => (stored.attributeLength.toNat,
    (codeInstructions stored).toOption.map fun list => (list.codeLength, list.items.any (·.operand = .branch 0)))

theorem value_guard_answers_string :
    AnswersValue (text "m") stringDescriptor true (text "G") (text "g") (text "v") 7 stringClass := by
  obtain ⟨cf₀, h⟩ := ok_of_succeeded (r := guardWithout stringDescriptor stringClass) (by decide +kernel)
  have hend : endState (guardWithout stringDescriptor) stringClass = cf₀ := by rw [endState, h]
  obtain ⟨index, method, stored, list, hfind, hcode, hlist, hiff⟩ :=
    (@value_guard_answers_iff _ _ _ (text "v") _ _ _ (by decide +kernel)).1 _ cf₀ rfl rfl (by decide +kernel) h
  have hmethod : (findMethod stringClass (text "m") stringDescriptor.text).map
      (fun m => (m.1, hasFlag m.2.accessFlags Acc.static_)) = some (0, true) := by decide +kernel
  rw [hfind, Option.map_some, Option.some.injEq, Prod.mk.injEq] at hmethod
  obtain ⟨rfl, hstatic⟩ := hmethod
  rw [hstatic] at hiff
  have hsize : guardedSize stringDescriptor stringClass = some (43, some (15, false)) := by decide +kernel
  rw [guardedSize, hend, hcode, Option.map_some, hlist] at hsize
  simp only [Except.toOption, Option.map_some, Option.some.injEq, Prod.mk.injEq, List.any_eq_false,
    decide_eq_true_eq] at hsize
  obtain ⟨hattribute, hcodeLength, hbranches⟩ := hsize
  have hroom : PoolRoom stringDescriptor true (text "G") (text "g") (text "v") stringClass :=
    ok_of_succeeded (by decide +kernel)
  refine (hiff hroom (by rw [hcodeLength]; decide)).mpr
    ⟨by decide +kernel, by decide +kernel, by decide +kernel, ?_, ?_⟩
  · exact fun node hn hzero => absurd hzero (hbranches node hn)
  · omega

/-- A method that returns an array of four dimensions. -/
def arrayDescriptor : MethodDescriptor := ⟨[], some (.array (.array (.array (.array (.base .int)))))⟩

/-- It returns `null`. -/
def arrayClass : ClassFile := guardedClass arrayDescriptor.text [Opc.aconst_null, Opc.areturn] [0, 0]

/-- Four brackets and a letter do not fit `value_descriptor`: the method can be guarded, but not with a value. -/
theorem value_guard_refuses_array : ∃ cf₀ stored list, guardWithout arrayDescriptor arrayClass = .ok () cf₀ ∧
    codeOf cf₀ 0 = some stored ∧ codeInstructions stored = .ok list ∧ list.codeLength + 8 ≤ jvmMaxCodeLength ∧
    PoolRoom arrayDescriptor true (text "G") (text "g") (text "v") arrayClass ∧
    ¬AnswersValue (text "m") arrayDescriptor true (text "G") (text "g") (text "v") 7 arrayClass := by
  obtain ⟨cf₀, h⟩ := ok_of_succeeded (r := guardWithout arrayDescriptor arrayClass) (by decide +kernel)
  have hend : endState (guardWithout arrayDescriptor) arrayClass = cf₀ := by rw [endState, h]
  have hsize : guardedSize arrayDescriptor arrayClass = some (40, some (13, false)) := by decide +kernel
  rw [guardedSize, hend] at hsize
  obtain ⟨stored, hcode, hvalue⟩ := Option.map_eq_some_iff.mp hsize
  obtain ⟨list, hlist, hlength⟩ := Option.map_eq_some_iff.mp (Prod.mk.inj hvalue).2
  have hcodeLength := (Prod.mk.inj hlength).1
  refine ⟨cf₀, stored, list, h, hcode, ok_of_toOption hlist, by rw [hcodeLength]; decide,
    ok_of_succeeded (by decide +kernel), ?_⟩
  rintro ⟨cf', -, -, -, -, -, -, -, hcall, -⟩
  have hfails : succeeded (classTransformInsertGuardedCall (some (text "m")) (some arrayDescriptor.text)
      (some (text "G")) (some (text "g")) (some (text "v")) 7 arrayClass) = false := by decide +kernel
  rw [hcall] at hfails
  cases hfails

end Jni2Hook
