import Jni2Hook.Code.ControlFlow
import Jni2Hook.Transform.ArrayBounds
import Jni2Hook.Transform.DescriptorSlots
import Jni2Hook.Transform.InsertedCall

/-!
# What a guarded call leaves in the tree

* `GuardRun`: the steps of a `class_transform_insert_guarded_call` that succeeds, with the trees between them.
* `GuardRun.interns`: the trees on the way differ in their pools only, which grow.
* `GuardRun.splicing`: the prologue is put before the first instruction; `GuardRun.graph_stored`: the graph of what is
  stored, with the branch of the prologue on the body.
-/

namespace Jni2Hook

open Lib

/-! ## Parameters that were described -/

/-- A walk that succeeds has recorded every parameter, and had room for them. -/
theorem describeLoop_cases {after : Bytes} : ∀ {types : List FieldType} {fuel : Nat}
    {found parameters : List ForwardedParameter} {slot : UInt16}, found.length ≤ parameterCapacity →
    describeLoop fuel (types.flatMap FieldType.text ++ 0x29 :: after) found slot = some parameters →
    parameters = found ++ describedFrom slot types ∧ found.length + types.length ≤ parameterCapacity
  | _, 0, _, _, _, _, h => by cases h
  | [], fuel + 1, found, parameters, slot, hcap, h => by
    simp only [List.flatMap_nil, List.nil_append, describeLoop, Option.some.injEq] at h
    rw [← h]
    simpa [describedFrom] using hcap
  | type :: rest, fuel + 1, found, parameters, slot, hcap, h => by
    have hroom : found.length ≠ parameterCapacity := by
      rintro hfull
      obtain ⟨first, more, htext, hend⟩ : ∃ first more, type.text = first :: more ∧ first ≠ 0x29 := by
        cases type with
        | base type => exact ⟨type.letter, [], rfl, by cases type <;> decide⟩
        | object name => exact ⟨0x4C, name.1 ++ [0x3B], rfl, by decide⟩
        | array component => exact ⟨0x5B, component.text, rfl, by decide⟩
      rw [List.flatMap_cons, htext, List.append_assoc, List.cons_append, describeLoop, if_pos hfull] at h
      · cases h
      · exact hend
    rw [List.flatMap_cons, List.append_assoc, describeLoop_type type hroom] at h
    obtain ⟨rfl, hlen⟩ := describeLoop_cases
      (by rw [List.length_append, List.length_singleton]; omega) h
    rw [List.length_append, List.length_singleton] at hlen
    refine ⟨by rw [describedFrom, List.append_assoc, List.singleton_append], ?_⟩
    rw [List.length_cons]
    omega

theorem describeParameters_cases {d : MethodDescriptor} {isStatic : Bool} {parameters : List ForwardedParameter}
    (h : describeParameters d.text isStatic = some parameters) :
    parameters = d.described isStatic ∧ d.argumentCount isStatic ≤ parameterCapacity := by
  rw [MethodDescriptor.text, describeParameters] at h
  cases isStatic with
  | true =>
    obtain ⟨rfl, hlen⟩ := describeLoop_cases (Nat.zero_le _) h
    exact ⟨rfl, hlen⟩
  | false =>
    obtain ⟨rfl, hlen⟩ := describeLoop_cases (by decide) h
    exact ⟨rfl, hlen⟩

theorem length_described (d : MethodDescriptor) (isStatic : Bool) :
    (d.described isStatic).length = d.argumentCount isStatic := by
  cases isStatic with
  | true => rw [MethodDescriptor.described, if_pos rfl, length_describedFrom,
      MethodDescriptor.argumentCount, if_pos rfl, Nat.zero_add]
  | false => rw [MethodDescriptor.described, if_neg (by decide), List.length_cons, length_describedFrom,
      MethodDescriptor.argumentCount, if_neg (by decide), Nat.add_comm]

/-- The loads that forward arguments. -/
def loadOpcodes : List UInt8 := [Opc.iload, Opc.lload, Opc.fload, Opc.dload, Opc.aload]

theorem load_mem (value : ValueType) : value.load ∈ loadOpcodes := by
  cases value <;> decide

/-- A parameter is loaded by a load, from a slot that is counted up by at most two for each parameter before it. -/
theorem mem_describedFrom : ∀ {types : List FieldType} {slot : UInt16}, slot.toNat + 2 * types.length < 2 ^ 16 →
    ∀ p ∈ describedFrom slot types, p.loadOpcode ∈ loadOpcodes ∧ p.slot.toNat ≤ slot.toNat + 2 * types.length
  | [], _, _, p, hp => absurd hp List.not_mem_nil
  | type :: rest, slot, hslot, p, hp => by
    have hwidth := width_le_two type.element.valueType
    simp only [List.length_cons] at hslot ⊢
    have next : (slot + UInt16.ofNat type.element.valueType.width).toNat =
        slot.toNat + type.element.valueType.width := by
      rw [UInt16.toNat_add, UInt16.toNat_ofNat']
      omega
    rcases List.mem_cons.mp hp with rfl | hp
    · exact ⟨load_mem _, by simp only [FieldType.described]; omega⟩
    · obtain ⟨hload, hle⟩ := mem_describedFrom (by rw [next]; omega) p hp
      exact ⟨hload, by omega⟩

theorem mem_described {d : MethodDescriptor} {isStatic : Bool} (hcap : d.argumentCount isStatic ≤ parameterCapacity) :
    ∀ p ∈ d.described isStatic, p.loadOpcode ∈ loadOpcodes ∧ p.slot.toNat < 2 ^ 8 := by
  intro p hp
  unfold MethodDescriptor.argumentCount parameterCapacity at hcap
  unfold MethodDescriptor.described at hp
  split at hp
  · obtain ⟨hload, hle⟩ := mem_describedFrom (by simp only [UInt16.reduceToNat]; omega) p hp
    simp only [UInt16.reduceToNat] at hle
    exact ⟨hload, by omega⟩
  · rcases List.mem_cons.mp hp with rfl | hp
    · exact ⟨by decide, by decide⟩
    · obtain ⟨hload, hle⟩ := mem_describedFrom (by simp only [UInt16.reduceToNat]; omega) p hp
      simp only [UInt16.reduceToNat] at hle
      exact ⟨hload, by omega⟩

/-! ## The steps -/

/-- The nodes that are put before a body: the guard, the branch to the body, and the value that is returned instead. -/
def guardNodes (guard value : List Instruction) (returns : UInt8) : List Instruction :=
  guard ++ newNode Opc.ifeq (.branch 0) :: (value ++ [newNode (returnOpcodeFor returns) .none])

section Steps

variable {cf cf' : ClassFile} {α : Type}

theorem withCause_of_ok {x : Edit α} {a : α} (h : x cf = .ok a cf') : withCause x cf = .ok a cf' := by
  rw [withCause, h]

theorem lookup_of_ok {f : ClassFile → Except TransformStatus α} {a : α} (h : f cf = .ok a) :
    lookup f cf = .ok a cf := by
  rw [lookup, run_bind, run_get]
  dsimp only
  rw [h]
  rfl

theorem loadCode_of_ok {index : Nat} {code : AttributeInfo} {editor : CodeEditor} (hcode : codeOf cf index = some code)
    (hload : codeEditorLoad code cf.constantPool = .ok editor) : loadCode index cf = .ok (code, editor) cf := by
  rw [loadCode, run_bind, run_get]
  dsimp only
  rw [hcode]
  dsimp only
  rw [hload]
  rfl

theorem insertNodesAt_of_ok {editor edited : CodeEditor} {offset : Nat} {nodes : List Instruction} {extraStack : UInt16}
    (h : codeEditorInsert editor offset nodes extraStack = (.ok (), edited)) :
    insertNodesAt editor offset nodes extraStack cf = .ok edited cf := by
  rw [insertNodesAt, h]
  rfl

end Steps

/-- The steps of a guarded call up to the constant of the guard, and the trees they leave behind. -/
structure GuardStart (name descriptor owner callee : Bytes) (argument : Int) (cf : ClassFile) where
  index : Nat
  method : MemberInfo
  returnType : Bytes
  ownerIndex : UInt16
  ownerTree : ClassFile
  code : AttributeInfo
  editor : CodeEditor
  parameters : List ForwardedParameter
  calleeDescriptor : Bytes
  methodref : UInt16
  guardTree : ClassFile
  fits : argumentFits argument = true
  found : guardableMethod cf name descriptor = .ok (index, method, returnType)
  internOwner : classFileInternClass owner cf = .ok ownerIndex ownerTree
  codeAt : codeOf ownerTree index = some code
  loaded : codeEditorLoad code ownerTree.constantPool = .ok editor
  described : describeParameters descriptor (hasFlag method.accessFlags Acc.static_) = some parameters
  built : buildCalleeDescriptor parameters 0x5A = some calleeDescriptor
  internGuard : classFileInternMethodref ownerIndex callee calleeDescriptor ownerTree = .ok methodref guardTree

/-- The steps of a guarded call that was inserted. -/
structure GuardRun (name descriptor owner callee : Bytes) (valueCallee : Option Bytes) (argument : Int)
    (cf cf' : ClassFile) extends GuardStart name descriptor owner callee argument cf where
  value : List Instruction
  valueTree : ClassFile
  edited : CodeEditor
  body : Instruction
  frame : StackMapFrame
  frameTree : ClassFile
  framed : CodeEditor
  tableTree : ClassFile
  stored : AttributeInfo
  valued : guardedValue returnType ownerIndex valueCallee argument guardTree = .ok value valueTree
  capacity : (guardNodes (forwardNodes argument parameters methodref) value (returnType.headD 0)).length ≤ nodeCapacity
  inserted : codeEditorInsert editor 0
    (guardNodes (forwardNodes argument parameters methodref) value (returnType.headD 0))
    (if returnType.headD 0 ≠ 0x56 ∧ forwardStack parameters < 2 then 2 else forwardStack parameters) = (.ok (), edited)
  bodyAt : edited.instructions.items[(guardNodes (forwardNodes argument parameters methodref) value
    (returnType.headD 0)).length]? = some body
  framedBody : buildEntryFrame descriptor (hasFlag method.accessFlags Acc.static_) (wrapI4 body.offset) valueTree =
    .ok frame frameTree
  tabled : addFrame (patchBranch edited (forwardNodes argument parameters methodref).length (wrapI4 body.offset)) frame
    frameTree = .ok framed tableTree
  storedCode : codeEditorStore framed code = .ok stored
  final : cf' = storedAt tableTree index stored

/-- The nodes of a call and the value behind them. -/
theorem GuardStart.call_eq {name descriptor owner callee : Bytes} {argument : Int} {cf : ClassFile}
    (start : GuardStart name descriptor owner callee argument cf) (valueCallee : Option Bytes) :
    insertGuardedCall name descriptor owner callee valueCallee argument cf = (do
      let value ← guardedValue start.returnType start.ownerIndex valueCallee argument
      insertGuard start.index start.code start.editor descriptor (hasFlag start.method.accessFlags Acc.static_)
        (forwardNodes argument start.parameters start.methodref) value (start.returnType.headD 0)
        (forwardStack start.parameters)) start.guardTree := by
  rw [insertGuardedCall, if_neg (by rw [start.fits]; decide)]
  dsimp only
  rw [run_bind, lookup_of_ok start.found]
  dsimp only
  rw [run_bind, withCause_of_ok start.internOwner]
  dsimp only
  rw [run_bind, loadCode_of_ok start.codeAt start.loaded]
  dsimp only
  rw [start.described]
  dsimp only
  rw [start.built]
  dsimp only
  rw [run_bind, withCause_of_ok start.internGuard]

theorem insertGuard_ok {index : Nat} {code : AttributeInfo} {editor : CodeEditor} {descriptor : Bytes} {isStatic : Bool}
    {guard value : List Instruction} {returns : UInt8} {forwarded : UInt16} {cf cf' : ClassFile}
    (h : insertGuard index code editor descriptor isStatic guard value returns forwarded cf = .ok () cf') :
    (guardNodes guard value returns).length ≤ nodeCapacity ∧ ∃ edited body frame frameTree framed tableTree stored,
      codeEditorInsert editor 0 (guardNodes guard value returns)
        (if returns ≠ 0x56 ∧ forwarded < 2 then 2 else forwarded) = (.ok (), edited) ∧
      edited.instructions.items[(guardNodes guard value returns).length]? = some body ∧
      buildEntryFrame descriptor isStatic (wrapI4 body.offset) cf = .ok frame frameTree ∧
      addFrame (patchBranch edited guard.length (wrapI4 body.offset)) frame frameTree = .ok framed tableTree ∧
      codeEditorStore framed code = .ok stored ∧ cf' = storedAt tableTree index stored := by
  unfold insertGuard at h
  dsimp only at h
  by_cases hcapacity : (guardNodes guard value returns).length > nodeCapacity
  · rw [guardNodes] at hcapacity
    rw [if_pos hcapacity] at h
    cases h
  refine ⟨Nat.le_of_not_lt hcapacity, ?_⟩
  rw [guardNodes] at hcapacity
  rw [if_neg hcapacity] at h
  obtain ⟨edited, cf₁, hat, hbound⟩ := exists_of_bind_ok h
  obtain ⟨hinsert, hsame⟩ := insertNodesAt_ok hat
  rw [hsame] at hbound
  cases hbody : edited.instructions.items[(guardNodes guard value returns).length]? with
  | none =>
    rw [guardNodes] at hbody
    rw [hbody] at hbound
    cases hbound
  | some body =>
    have hbody' := hbody
    rw [guardNodes] at hbody'
    rw [hbody'] at hbound
    obtain ⟨frame, frameTree, hframe, hadd⟩ := exists_of_bind_ok hbound
    obtain ⟨framed, tableTree, htable, hend⟩ := exists_of_bind_ok hadd
    obtain ⟨stored, hstore, rfl⟩ := storeCode_ok hend
    exact ⟨edited, body, frame, frameTree, framed, tableTree, stored, hinsert,
      hbody, withCause_ok hframe, htable, hstore, rfl⟩

/-- A call that ends with success, or past an array, has come to the value. -/
theorem exists_guardStart {name descriptor owner callee : Bytes} {valueCallee : Option Bytes} {argument : Int}
    {cf : ClassFile} {r : EStateM.Result TransformStatus ClassFile Unit}
    (h : insertGuardedCall name descriptor owner callee valueCallee argument cf = r)
    (hr : ∀ e tree, r = .error e tree → e = .overrun) :
    Nonempty (GuardStart name descriptor owner callee argument cf) := by
  unfold insertGuardedCall at h
  by_cases hfits : argumentFits argument = false
  · rw [if_pos hfits] at h
    cases hr _ _ h.symm
  rw [if_neg hfits] at h
  obtain ⟨⟨index, method, returnType⟩, cf₁, hlookup, h₁⟩ :=
    (within_lookup fun cf => guardableMethod_ne cf _ _).of_bind h hr
  obtain ⟨hfound, hsame₁⟩ := lookup_ok hlookup
  rw [hsame₁] at h₁
  obtain ⟨ownerIndex, ownerTree, howner, h₂⟩ := (within_withCause _).of_bind h₁ hr
  obtain ⟨⟨code, editor⟩, cf₃, hloaded, h₃⟩ := (within_loadCode _).of_bind h₂ hr
  obtain ⟨hcode, hload, hsame₃⟩ := loadCode_ok hloaded
  rw [hsame₃] at h₃
  dsimp only at h₃ hcode hload
  cases hdescribed : describeParameters descriptor (hasFlag method.accessFlags Acc.static_) with
  | none =>
    rw [hdescribed] at h₃
    cases hr _ _ h₃.symm
  | some parameters =>
    rw [hdescribed] at h₃
    dsimp only at h₃
    cases hbuilt : buildCalleeDescriptor parameters 0x5A with
    | none =>
      rw [hbuilt] at h₃
      cases hr _ _ h₃.symm
    | some calleeDescriptor =>
      rw [hbuilt] at h₃
      obtain ⟨methodref, guardTree, hmethodref, -⟩ := (within_withCause _).of_bind h₃ hr
      exact ⟨{
        index, method, returnType, ownerIndex, ownerTree, code, editor, parameters, calleeDescriptor, methodref
        guardTree
        fits := by simpa using hfits
        found := hfound
        internOwner := withCause_ok howner
        codeAt := hcode
        loaded := hload
        described := hdescribed
        built := hbuilt
        internGuard := withCause_ok hmethodref }⟩

theorem insertGuardedCall_ok {name descriptor owner callee : Bytes} {valueCallee : Option Bytes} {argument : Int}
    {cf cf' : ClassFile} (h : insertGuardedCall name descriptor owner callee valueCallee argument cf = .ok () cf') :
    Nonempty (GuardRun name descriptor owner callee valueCallee argument cf cf') := by
  obtain ⟨start⟩ := exists_guardStart h nofun
  rw [start.call_eq] at h
  obtain ⟨value, valueTree, hvalue, hinsert⟩ := exists_of_bind_ok h
  obtain ⟨hcapacity, edited, body, frame, frameTree, framed, tableTree, stored, hinsert, hbody, hframe, htable, hstore,
    hfinal⟩ := insertGuard_ok hinsert
  exact ⟨{
    toGuardStart := start
    value, valueTree, edited, body, frame, frameTree, framed, tableTree, stored
    valued := hvalue
    capacity := hcapacity
    inserted := hinsert
    bodyAt := hbody
    framedBody := hframe
    tabled := htable
    storedCode := hstore
    final := hfinal }⟩

/-! ## The entry frame -/

/-- A verification type is that of a parameter: a class by its name, an array by its descriptor. -/
def TypeOf (pool : ConstantPool) : FieldType → VerificationType → Prop
  | .base .float, type => type = .float
  | .base .double, type => type = .double
  | .base .long, type => type = .long
  | .base _, type => type = .integer
  | .object name, type => ∃ index, type = .object index ∧ classNameAt pool index = some name.1
  | .array component, type => ∃ index, type = .object index ∧ classNameAt pool index = some (0x5B :: component.text)

theorem TypeOf.grows {pool pool' : ConstantPool} (h : Grows pool pool') {type : FieldType} {v : VerificationType}
    (ht : TypeOf pool type v) : TypeOf pool' type v := by
  cases type with
  | base base => cases base <;> exact ht
  | object name =>
    obtain ⟨index, rfl, hname⟩ := ht
    exact ⟨index, rfl, h.className hname⟩
  | array component =>
    obtain ⟨index, rfl, hname⟩ := ht
    exact ⟨index, rfl, h.className hname⟩

/-- A type is its brackets and its element. -/
theorem text_eq_brackets (type : FieldType) : ∃ brackets, type.text = brackets ++ type.element.text ∧
    (∀ c ∈ brackets, c = 0x5B) ∧ (brackets = [] ↔ type.element = type) := by
  induction type with
  | base base => exact ⟨[], rfl, fun c hc => absurd hc List.not_mem_nil, fun _ => rfl, fun _ => rfl⟩
  | object name => exact ⟨[], rfl, fun c hc => absurd hc List.not_mem_nil, fun _ => rfl, fun _ => rfl⟩
  | array component ih =>
    obtain ⟨brackets, htext, hall, -⟩ := ih
    refine ⟨0x5B :: brackets, by rw [FieldType.text, htext]; rfl, fun c hc => ?_,
      fun hnil => absurd hnil (List.cons_ne_nil _ _), fun heq => ?_⟩
    · rcases List.mem_cons.mp hc with rfl | hc
      · rfl
      · exact hall c hc
    · obtain ⟨base, h⟩ | ⟨name, h⟩ := element_cases component <;>
      · rw [FieldType.element, h] at heq
        cases heq

theorem element_head (type : FieldType) (rest : Bytes) : ∃ tail, type.element.text ++ rest = type.letter :: tail ∧
    type.letter ≠ 0x5B := by
  induction type with
  | base base => exact ⟨rest, rfl, by cases base <;> decide⟩
  | object name => exact ⟨name.1 ++ [0x3B] ++ rest, rfl, by rw [FieldType.letter]; decide⟩
  | array component ih => exact ih

/-- One type is read off the front of a descriptor. -/
theorem span_text (type : FieldType) (rest : Bytes) : ∃ brackets tail, type.text = brackets ++ type.element.text ∧
    (brackets = [] ↔ type.element = type) ∧ (type.text ++ rest).takeWhile (· == 0x5B) = brackets ∧
    (type.text ++ rest).dropWhile (· == 0x5B) = type.letter :: tail ∧ afterType type.letter tail = some rest ∧
    (type.letter :: tail).take (1 + tail.length - rest.length) = type.element.text := by
  obtain ⟨brackets, htext, hall, hnil⟩ := text_eq_brackets type
  obtain ⟨tail', hdrop, hafter⟩ := dropWhile_text type rest
  obtain ⟨tail, hhead, hne⟩ := element_head type rest
  have hbrackets : ∀ c ∈ brackets, (c == 0x5B) = true := fun c hc => by simpa using hall c hc
  have hstop : (type.letter == 0x5B) = false := by simpa using hne
  have htake : (type.text ++ rest).takeWhile (· == 0x5B) = brackets := by
    rw [htext, List.append_assoc, List.takeWhile_append_of_pos hbrackets, hhead, List.takeWhile_cons, hstop]
    simp
  have hrest : (type.text ++ rest).dropWhile (· == 0x5B) = type.element.text ++ rest := by
    rw [htext, List.append_assoc, List.dropWhile_append_of_pos hbrackets, hhead, List.dropWhile_cons, hstop]
    simp
  refine ⟨brackets, tail', htext, hnil, htake, hdrop, hafter, ?_⟩
  rw [hdrop] at hrest
  have hlen := congrArg List.length hrest
  simp only [List.length_cons, List.length_append] at hlen
  rw [hrest, show 1 + tail'.length - rest.length = type.element.text.length by omega, List.take_left']
  rfl

theorem parameterType_ok {type : FieldType} {brackets : Bytes} (htext : type.text = brackets ++ type.element.text)
    (hnil : brackets = [] ↔ type.element = type) {cf cf' : ClassFile} {v : VerificationType}
    (h : parameterType brackets type.element.text (type.letter = 0x4C) cf = .ok v cf') :
    Interns cf cf' ∧ (cf.constantPool.count ≤ classfileMaxCount → TypeOf cf'.constantPool type v) := by
  unfold parameterType at h
  cases type with
  | base base =>
    obtain rfl := hnil.mpr rfl
    cases base <;>
    · cases h
      exact ⟨.refl _, fun _ => rfl⟩
  | object name =>
    obtain rfl := hnil.mpr rfl
    rw [if_pos (.inr (by simp [FieldType.letter]))] at h
    simp only [List.isEmpty_nil, if_true, FieldType.element, FieldType.text, List.drop_succ_cons, List.drop_zero,
      List.dropLast_concat] at h
    split at h
    · cases h
    · obtain ⟨index, cf₁, hclass, hpure⟩ := exists_of_bind_ok h
      obtain ⟨hinterns, hname⟩ := internClass_ok hclass
      cases hpure
      exact ⟨hinterns, fun hcount => ⟨index, rfl, hname hcount⟩⟩
  | array component =>
    have hne : brackets ≠ [] := by
      intro h0
      obtain ⟨base, he⟩ | ⟨name, he⟩ := element_cases component <;>
      · have := hnil.mp h0
        rw [FieldType.element, he] at this
        cases this
    have hempty : brackets.isEmpty = false := by simpa using hne
    rw [if_pos (.inl hempty)] at h
    simp only [hempty, ← htext, Bool.false_eq_true, if_false] at h
    split at h
    · cases h
    · obtain ⟨index, cf₁, hclass, hpure⟩ := exists_of_bind_ok h
      obtain ⟨hinterns, hname⟩ := internClass_ok hclass
      cases hpure
      exact ⟨hinterns, fun hcount => ⟨index, rfl, hname hcount⟩⟩

theorem entryFrameLoop_ok {after : Bytes} :
    ∀ {types : List FieldType} {fuel : Nat} {found locals : List VerificationType}
    {cf cf' : ClassFile},
    entryFrameLoop fuel (types.flatMap FieldType.text ++ 0x29 :: after) found cf = .ok locals cf' →
    Interns cf cf' ∧ ∃ types', locals = found ++ types' ∧
      (cf.constantPool.count ≤ classfileMaxCount → List.Forall₂ (TypeOf cf'.constantPool) types types')
  | _, 0, _, _, _, _, h => by cases h
  | [], fuel + 1, found, locals, cf, cf', h => by
    cases h
    exact ⟨.refl _, [], (List.append_nil _).symm, fun _ => .nil⟩
  | type :: rest, fuel + 1, found, locals, cf, cf', h => by
    obtain ⟨brackets, tail, htext, hnil, htake, hdrop, hafter, hnamed⟩ :=
      span_text type (rest.flatMap FieldType.text ++ 0x29 :: after)
    obtain ⟨first, more, hfirst, -, hend⟩ := head_text type (rest.flatMap FieldType.text ++ 0x29 :: after)
    rw [List.flatMap_cons, List.append_assoc, entryFrameLoop] at h
    · split at h
      · cases h
      · simp only [htake, hdrop, hafter, hnamed] at h
        obtain ⟨v, cf₁, htype, hloop⟩ := exists_of_bind_ok h
        obtain ⟨hinterns, hv⟩ := parameterType_ok htext hnil htype
        obtain ⟨hinterns', types', rfl, hall⟩ := entryFrameLoop_ok hloop
        refine ⟨hinterns.trans hinterns', v :: types', by simp, fun hcount => ?_⟩
        exact .cons ((hv hcount).grows hinterns'.grows) (hall (hinterns.count hcount))
    · rw [hfirst]
      exact List.cons_ne_nil _ _
    · rw [hfirst]
      exact fun _ heq => hend (List.cons.inj heq).1

/-- The locals of a method when it is entered: the receiver and the parameters. -/
def EntryLocals (cf : ClassFile) (d : MethodDescriptor) (isStatic : Bool) (locals : List VerificationType) : Prop :=
  ∃ types, locals = (if isStatic then [] else [.object cf.thisClass]) ++ types ∧
    List.Forall₂ (TypeOf cf.constantPool) d.parameters types

theorem buildEntryFrame_ok {d : MethodDescriptor} {isStatic : Bool} {offset : Int} {cf cf' : ClassFile}
    {frame : StackMapFrame} (h : buildEntryFrame d.text isStatic offset cf = .ok frame cf') :
    Interns cf cf' ∧ ∃ locals, frame = ⟨255, offset, .full locals []⟩ ∧
      (cf.constantPool.count ≤ classfileMaxCount → EntryLocals cf' d isStatic locals) := by
  unfold buildEntryFrame at h
  obtain ⟨_, _, hget, hrest⟩ := exists_of_bind_ok h
  cases hget
  obtain ⟨locals, cf₁, hloop, hpure⟩ := exists_of_bind_ok hrest
  cases hpure
  obtain ⟨hinterns, types, rfl, hall⟩ := entryFrameLoop_ok hloop
  refine ⟨hinterns, _, rfl, fun hcount => ⟨types, ?_, hall hcount⟩⟩
  rw [hinterns.rest]

/-! ## The value that is returned instead -/

/-- The name of the class that a result of this type is cast to. -/
def castName (returnType : Bytes) : Bytes :=
  if returnType.headD 0 = 0x4C then (returnType.drop 1).take (returnType.length - 2) else returnType

/-- A result type that is a class or an array. -/
def isReference (returnType : Bytes) : Bool := returnType.headD 0 = 0x4C ∨ returnType.headD 0 = 0x5B

/-- The descriptor under which `value_callee` is called. -/
def valueDescriptor (returnType letters : Bytes) : Bytes :=
  if isReference returnType then text "(I)Ljava/lang/Object;" else text "(I)" ++ letters

/-- What the value is made of: the call of `value_callee`, and a cast where the result is a reference. -/
inductive ValueCall (returnType : Bytes) (ownerIndex : UInt16) (callee : Bytes) (argument : Int) (cf cf' : ClassFile) :
    List Instruction → Prop
  | primitive {letters : Bytes} {valueRef : UInt16} (hprimitive : isReference returnType = false)
      (hletters : valueLetters returnType 3 = some letters)
      (hcall : classFileInternMethodref ownerIndex callee (valueDescriptor returnType letters) cf = .ok valueRef cf') :
      ValueCall returnType ownerIndex callee argument cf cf'
        [newNode Opc.sipush (.immediate argument), newNode Opc.invokestatic (.cpIndex valueRef)]
  | reference {letters : Bytes} {valueRef castIndex : UInt16} {tree : ClassFile}
      (hreference : isReference returnType = true) (hletters : valueLetters returnType 3 = some letters)
      (hlength : returnType.length < 512)
      (hcall : classFileInternMethodref ownerIndex callee (valueDescriptor returnType letters) cf = .ok valueRef tree)
      (hcast : classFileInternClass (castName returnType) tree = .ok castIndex cf') :
      ValueCall returnType ownerIndex callee argument cf cf'
        [newNode Opc.sipush (.immediate argument), newNode Opc.invokestatic (.cpIndex valueRef),
          newNode Opc.checkcast (.cpIndex castIndex)]

/-- Nothing for `void`, a constant without a `value_callee`, and else its call. -/
inductive GuardedValue (returnType : Bytes) (ownerIndex : UInt16) (argument : Int) (cf cf' : ClassFile) :
    Option Bytes → List Instruction → Prop
  | void {valueCallee : Option Bytes} (hvoid : returnType.headD 0 = 0x56) (hsame : cf' = cf) :
      GuardedValue returnType ownerIndex argument cf cf' valueCallee []
  | constant (hvalue : returnType.headD 0 ≠ 0x56) (hsame : cf' = cf) :
      GuardedValue returnType ownerIndex argument cf cf' none [newNode (defaultOpcodeFor (returnType.headD 0)) .none]
  | call {callee : Bytes} {value : List Instruction} (hvalue : returnType.headD 0 ≠ 0x56)
      (hcall : ValueCall returnType ownerIndex callee argument cf cf' value) :
      GuardedValue returnType ownerIndex argument cf cf' (some callee) value

theorem guardedValue_ok {returnType : Bytes} {ownerIndex : UInt16} {valueCallee : Option Bytes} {argument : Int}
    {cf cf' : ClassFile} {value : List Instruction}
    (h : guardedValue returnType ownerIndex valueCallee argument cf = .ok value cf') :
    GuardedValue returnType ownerIndex argument cf cf' valueCallee value := by
  unfold guardedValue at h
  dsimp only at h
  split at h
  · rename_i hvoid
    cases h
    exact .void hvoid rfl
  rename_i hvalue
  cases valueCallee with
  | none =>
    cases h
    exact .constant hvalue rfl
  | some callee =>
    cases hletters : valueLetters returnType 3 with
    | none =>
      rw [hletters] at h
      cases h
    | some letters =>
      rw [hletters] at h
      obtain ⟨valueRef, tree, hcall, hrest⟩ := exists_of_bind_ok h
      refine .call hvalue ?_
      by_cases hreference : returnType.headD 0 = 0x4C ∨ returnType.headD 0 = 0x5B
      · rw [if_pos hreference] at hcall hrest
        split at hrest
        · cases hrest
        · rename_i hlength
          split at hrest
          · cases hrest
          obtain ⟨castIndex, tree', hcast, hpure⟩ := exists_of_bind_ok hrest
          cases hpure
          have hre : isReference returnType = true := decide_eq_true hreference
          exact .reference hre hletters (by omega) (by rw [valueDescriptor, if_pos hre]; exact withCause_ok hcall)
            (withCause_ok hcast)
      · rw [if_neg hreference] at hcall hrest
        cases hrest
        have hre : isReference returnType = false := decide_eq_false hreference
        refine .primitive hre hletters ?_
        rw [valueDescriptor, hre]
        exact withCause_ok hcall

/-- The nodes that ask for the value and cast it. -/
def answerNodes (argument : Int) (valueRef castIndex : UInt16) : List Instruction :=
  [newNode Opc.sipush (.immediate argument), newNode Opc.invokestatic (.cpIndex valueRef),
    newNode Opc.checkcast (.cpIndex castIndex)]

theorem guardedValue_of_ok {returnType answer letters : Bytes} {ownerIndex valueRef castIndex : UInt16} {argument : Int}
    {cf refTree valueTree : ClassFile} (hreference : isReference returnType = true)
    (hletters : valueLetters returnType 3 = some letters) (hlength : returnType.length < 512)
    (hnamed : ¬(returnType.headD 0 = 0x4C ∧ returnType.length < 2))
    (hvalue : classFileInternMethodref ownerIndex answer (text "(I)Ljava/lang/Object;") cf = .ok valueRef refTree)
    (hcast : classFileInternClass (castName returnType) refTree = .ok castIndex valueTree) :
    guardedValue returnType ownerIndex (some answer) argument cf =
      .ok (answerNodes argument valueRef castIndex) valueTree := by
  have hre : returnType.headD 0 = 0x4C ∨ returnType.headD 0 = 0x5B := of_decide_eq_true hreference
  have hvoid : returnType.headD 0 ≠ 0x56 := by
    rcases hre with h | h <;>
    · rw [h]
      decide
  unfold guardedValue
  dsimp only
  rw [if_neg hvoid, hletters]
  dsimp only
  rw [if_pos hre, run_bind, withCause_of_ok hvalue]
  dsimp only
  rw [if_pos hre, if_neg (by omega), if_neg hnamed, run_bind]
  rw [castName] at hcast
  rw [withCause_of_ok hcast]
  rfl

theorem GuardedValue.interns {returnType : Bytes} {ownerIndex : UInt16} {argument : Int} {cf cf' : ClassFile}
    {valueCallee : Option Bytes} {value : List Instruction}
    (h : GuardedValue returnType ownerIndex argument cf cf' valueCallee value) : Interns cf cf' := by
  cases h with
  | void _ hsame => rw [hsame]; exact .refl cf
  | constant _ hsame => rw [hsame]; exact .refl cf
  | call _ hcall =>
    cases hcall with
    | primitive _ _ hcall => exact (internMethodref_steps hcall).1
    | reference _ _ _ hcall hcast => exact (internMethodref_steps hcall).1.trans (internClass_ok hcast).1

theorem addFrame_ok {editor framed : CodeEditor} {frame : StackMapFrame} {cf cf' : ClassFile}
    (h : addFrame editor frame cf = .ok framed cf') : Interns cf cf' ∧ ∃ nameIndex frames,
      insertFrame (tableEntries editor.stackMap) frame = .ok frames ∧
      framed = { editor with stackMap := some ⟨nameIndex, frames⟩ } ∧ (∀ table ∈ editor.stackMap,
        nameIndex = table.nameIndex ∧ cf' = cf) ∧ (editor.stackMap = none →
          constantPoolFind cf'.constantPool (· == .utf8 (text "StackMapTable")) = some nameIndex) := by
  unfold addFrame at h
  obtain ⟨frames, cf₁, hframes, hrest⟩ := exists_of_bind_ok h
  obtain ⟨hinsert, hsame⟩ := liftCause_ok hframes
  rw [hsame] at hrest
  cases htable : editor.stackMap with
  | some table =>
    rw [htable] at hrest hinsert
    cases hrest
    refine ⟨.refl cf, table.nameIndex, frames, hinsert, rfl, fun t ht => ?_, fun hnone => by cases hnone⟩
    cases ht
    exact ⟨rfl, rfl⟩
  | none =>
    rw [htable] at hrest hinsert
    obtain ⟨nameIndex, cf₂, hname, hpure⟩ := exists_of_bind_ok hrest
    obtain ⟨hinterns, hfind⟩ := internUtf8_ok (withCause_ok hname)
    cases hpure
    exact ⟨hinterns, nameIndex, frames, hinsert, rfl, fun t ht => absurd ht (by simp), fun _ => hfind⟩

/-! ## The nodes -/

/-- A node without targets that can be encoded. -/
def Instruction.Sound (node : Instruction) : Prop := node.Encodable ∧ node.operand.targets = []

theorem encodable_newNode {opcode : UInt8} {operand : Operand} (h : instructionOpcodeIsDefined opcode = true ∧
    opcode ≠ Opc.wide ∧ instructionKindOf opcode = operand.kind) (hfits : operand.Fits opcode false) :
    (newNode opcode operand).Encodable where
  defined := h.1
  notWide := h.2.1
  kind := h.2.2.symm
  widenable := fun hwide => (nomatch hwide)
  fits := hfits

theorem sound_none {opcode : UInt8} (h : instructionOpcodeIsDefined opcode = true ∧ opcode ≠ Opc.wide ∧
    instructionKindOf opcode = .none) : (newNode opcode .none).Sound := ⟨encodable_newNode h trivial, rfl⟩

theorem sound_cpIndex {opcode : UInt8} (index : UInt16) (h : instructionOpcodeIsDefined opcode = true ∧
    opcode ≠ Opc.wide ∧ instructionKindOf opcode = .cpIndex) : (newNode opcode (.cpIndex index)).Sound :=
  ⟨encodable_newNode h trivial, rfl⟩

theorem sound_sipush {argument : Int} (h : argumentFits argument = true) :
    (newNode Opc.sipush (.immediate argument)).Sound := by
  simp only [argumentFits, Bool.not_eq_true', Bool.or_eq_false_iff, decide_eq_false_iff_not] at h
  have hfits : FitsI2 argument := by constructor <;> omega
  exact ⟨encodable_newNode ⟨by decide, by decide, rfl⟩ hfits, rfl⟩

theorem sound_load {opcode : UInt8} (hload : opcode ∈ loadOpcodes) {slot : UInt16} (hslot : slot.toNat < 2 ^ 8) :
    (newNode opcode (.local_ slot)).Sound := by
  have table : ∀ o ∈ loadOpcodes, instructionOpcodeIsDefined o = true ∧ o ≠ Opc.wide ∧
    instructionKindOf o = .local_ := by
    simp only [loadOpcodes, List.forall_mem_cons, List.not_mem_nil, false_imp_iff, implies_true, and_true]
    decide
  exact ⟨encodable_newNode (table opcode hload) (.inr hslot), rfl⟩

theorem sound_returnOpcodeFor (letter : UInt8) : (newNode (returnOpcodeFor letter) .none).Sound := by
  unfold returnOpcodeFor
  split <;> exact sound_none (by decide)

theorem sound_defaultOpcodeFor (letter : UInt8) : (newNode (defaultOpcodeFor letter) .none).Sound := by
  unfold defaultOpcodeFor
  split <;> exact sound_none (by decide)

theorem sound_forwardNodes {argument : Int} {parameters : List ForwardedParameter} {methodref : UInt16}
    (hfits : argumentFits argument = true)
    (hall : ∀ p ∈ parameters, p.loadOpcode ∈ loadOpcodes ∧ p.slot.toNat < 2 ^ 8) :
    ∀ node ∈ forwardNodes argument parameters methodref, node.Sound := by
  intro node hn
  simp only [forwardNodes, List.mem_cons, List.mem_append, List.mem_map, List.not_mem_nil, or_false] at hn
  rcases hn with rfl | ⟨p, hp, rfl⟩ | rfl
  · exact sound_sipush hfits
  · exact sound_load (hall p hp).1 (hall p hp).2
  · exact sound_cpIndex methodref (by decide)

theorem GuardedValue.sound {returnType : Bytes} {ownerIndex : UInt16} {argument : Int} {cf cf' : ClassFile}
    {valueCallee : Option Bytes} {value : List Instruction} (hfits : argumentFits argument = true)
    (h : GuardedValue returnType ownerIndex argument cf cf' valueCallee value) : ∀ node ∈ value, node.Sound := by
  intro node hn
  cases h with
  | void => exact absurd hn List.not_mem_nil
  | constant =>
    rw [List.mem_singleton.mp hn]
    exact sound_defaultOpcodeFor _
  | call _ hcall =>
    cases hcall with
    | primitive =>
      simp only [List.mem_cons, List.not_mem_nil, or_false] at hn
      rcases hn with rfl | rfl
      · exact sound_sipush hfits
      · exact sound_cpIndex _ (by decide)
    | reference =>
      simp only [List.mem_cons, List.not_mem_nil, or_false] at hn
      rcases hn with rfl | rfl | rfl
      · exact sound_sipush hfits
      · exact sound_cpIndex _ (by decide)
      · exact sound_cpIndex _ (by decide)

theorem mem_guardNodes {guard value : List Instruction} {returns : UInt8} {node : Instruction}
    (h : node ∈ guardNodes guard value returns) : node ∈ guard ∨ node = newNode Opc.ifeq (.branch 0) ∨ node ∈ value ∨
      node = newNode (returnOpcodeFor returns) .none := by
  simpa [guardNodes] using h

/-! ## What the run says -/

/-- The text behind the first closing parenthesis, which the source takes for the return type. -/
def scannedReturn (descriptor : Bytes) : Bytes := (descriptor.dropWhile (· != 0x29)).drop 1

theorem guardableMethod_ok {cf : ClassFile} {name descriptor returnType : Bytes} {index : Nat} {method : MemberInfo}
    (h : guardableMethod cf name descriptor = .ok (index, method, returnType)) :
    findMethod cf name descriptor = some (index, method) ∧ (∃ code, findCode cf method = some code) ∧
      returnType = scannedReturn descriptor ∧ returnType ≠ [] := by
  unfold guardableMethod at h
  cases hfind : findMethod cf name descriptor with
  | none =>
    rw [hfind] at h
    cases h
  | some found =>
    obtain ⟨i, m⟩ := found
    rw [hfind] at h
    dsimp only at h
    split at h
    · cases h
    split at h
    · cases h
    split at h
    · cases h
    split at h
    · cases h
    rename_i hcode
    cases hreturn : (descriptor.dropWhile (· != 0x29)).drop 1 with
    | nil =>
      rw [hreturn] at h
      cases h
    | cons c rest =>
      rw [hreturn] at h
      cases h
      refine ⟨rfl, ?_, hreturn.symm, List.cons_ne_nil _ _⟩
      cases hfound : findCode cf method with
      | none =>
        rw [hfound] at hcode
        exact absurd rfl hcode
      | some code => exact ⟨code, rfl⟩

theorem Interns.edits {cf cf' : ClassFile} (h : Interns cf cf') : Edits cf cf' := by
  refine ⟨h.grows, by rw [h.rest], by rw [h.rest], fun hm => ⟨_, ?_, rfl, rfl⟩⟩
  rw [h.rest]
  exact hm

/-- The first Code attribute of a method is what was stored over it. -/
theorem codeOf_storedAt {cf : ClassFile} {index : Nat} {code stored : AttributeInfo}
    (hcode : codeOf cf index = some code)
    (hname : stored.attributeNameIndex = code.attributeNameIndex) :
    codeOf (storedAt cf index stored) index = some stored := by
  obtain ⟨method, hmethod, hfind⟩ := Option.bind_eq_some_iff.mp hcode
  have hcodeName : isCode cf.constantPool code = true := by
    have := List.find?_some (p := fun a : AttributeInfo =>
      constantPoolUtf8Equals cf.constantPool a.attributeNameIndex (text "Code")) hfind
    exact this
  have hstoredName : isCode cf.constantPool stored = true := by
    rw [isCode, hname]
    exact hcodeName
  refine Option.bind_eq_some_iff.mpr ⟨{ method with
    attributes := replaceCode cf.constantPool stored method.attributes }, ?_, ?_⟩
  · simp only [storedAt, List.getElem?_modify, hmethod]
    simp
  · show (replaceCode cf.constantPool stored method.attributes).find? (isCode cf.constantPool) = some stored
    unfold findCode attributeListFind at hfind
    unfold replaceCode
    cases hidx : method.attributes.findIdx? (isCode cf.constantPool) with
    | none =>
      have := List.findIdx?_eq_none_iff.mp hidx code (List.mem_of_find?_eq_some hfind)
      rw [hcodeName] at this
      cases this
    | some i =>
      obtain ⟨hlt, -, hbefore⟩ := List.findIdx?_eq_some_iff_getElem.mp hidx
      refine List.find?_eq_some_iff_getElem.mpr ⟨hstoredName, i, by simpa using hlt, by simp, fun j hj => ?_⟩
      rw [List.getElem_set_of_ne (by omega)]
      simpa using hbefore j hj

/-! ## The branch of the guard -/

theorem map_modify {α β : Type} {f : α → α} {g : α → β} {h : β → β} : ∀ {l : List α} {i : Nat},
    (∀ x, l[i]? = some x → g (f x) = h (g x)) → (l.modify i f).map g = (l.map g).modify i h
  | [], _, _ => by simp
  | x :: l, 0, hx => by simp [hx x rfl]
  | x :: l, i + 1, hx => by
    have rest := @map_modify _ _ f g h l i fun y hy => hx y (by simpa using hy)
    simp only [List.modify_succ_cons, List.map_cons, rest]

/-- A change that keeps the size of a node keeps every offset. -/
theorem placeFrom_modify {f : Instruction → Instruction} (hoffset : ∀ x n, f { x with offset := n } =
    { f x with offset := n }) : ∀ {n : Nat} {items : List Instruction} {i : Nat},
    (∀ x, items[i]? = some x → ∀ m, (f x).size m = x.size m) →
    placeFrom n (items.modify i f) = (placeFrom n items).modify i f
  | _, [], _, _ => by simp [placeFrom]
  | n, x :: items, 0, hx => by
    rw [List.modify_zero_cons, placeFrom, placeFrom, List.modify_zero_cons, hx x rfl n]
    exact congrArg (· :: _) (hoffset x n).symm
  | n, x :: items, i + 1, hx => by
    have rest := @placeFrom_modify f hoffset (n + x.size n) items i fun y hy => hx y (by simpa using hy)
    simp only [List.modify_succ_cons, placeFrom, rest]

/-- Another target in the branch of index `i`. -/
def InstructionList.retarget (list : InstructionList) (i : Nat) (target : Int) : InstructionList :=
  { list with items := list.items.modify i fun node => { node with operand := .branch target } }

theorem size_retarget {node : Instruction} {old target : Int} (hbranch : node.operand = .branch old) (m : Nat) :
    ({ node with operand := .branch target } : Instruction).size m = node.size m := by
  simp only [Instruction.size, hbranch, Operand.size]
  rfl

theorem names_retarget (list : InstructionList) (i : Nat) (target : Int) :
    (list.retarget i target).names = list.names := by
  have offsets : (list.retarget i target).items.map (fun node => (node.offset : Int)) =
      list.items.map fun node => (node.offset : Int) := by
    rw [InstructionList.retarget, map_modify (h := id), List.modify_id]
    exact fun _ _ => rfl
  funext v
  rw [InstructionList.names, offsets]
  rfl

section Retarget

variable {list : InstructionList} {i : Nat} {node : Instruction} {old target : Int}
  (hnode : list.items[i]? = some node) (hbranch : node.operand = .branch old)

include hnode hbranch

theorem sizes_retarget : (list.retarget i target).items.map Instruction.size = list.items.map Instruction.size := by
  rw [InstructionList.retarget, map_modify (h := id), List.modify_id]
  intro x hx
  rw [hnode] at hx
  cases hx
  funext m
  exact size_retarget hbranch m

theorem encodable_retarget (hall : ∀ x ∈ list.items, x.Encodable) (hfits : FitsI4 target) :
    ∀ x ∈ (list.retarget i target).items, x.Encodable := by
  intro x hx
  obtain ⟨k, hk⟩ := List.mem_iff_getElem?.mp hx
  rw [InstructionList.retarget, List.getElem?_modify] at hk
  obtain ⟨y, hy, hxy⟩ := Option.map_eq_some_iff.mp hk
  split at hxy
  · rename_i heq
    rw [← heq, hnode] at hy
    cases hy
    have he := hall node (List.mem_of_getElem? hnode)
    rw [← hxy]
    exact ⟨he.defined, he.notWide, by rw [← he.kind, hbranch]; rfl, he.widenable, hfits⟩
  · rw [← hxy]
    exact hall y (List.mem_of_getElem? hy)

theorem laid_retarget (hl : list.Laid) (hfits : FitsI4 target) : (list.retarget i target).Laid where
  placed := by
    have hmodify := @placeFrom_modify (fun node => { node with operand := .branch target }) (fun _ _ => rfl) 0
      list.items i (fun x hx m => by
        rw [hnode] at hx
        cases hx
        exact size_retarget hbranch m)
    rw [hl.placed] at hmodify
    exact hmodify
  stop := by
    rw [extent_of_sizes (sizes_retarget hnode hbranch)]
    exact hl.stop
  encodable := encodable_retarget hnode hbranch hl.encodable hfits

end Retarget

/-- The view of an editor with another target in a branch. -/
theorem resolve_retarget {editor : CodeEditor} {i : Nat} {node : Instruction} {old : Int} (target : Int)
    (hnode : editor.instructions.items[i]? = some node) (hbranch : node.operand = .branch old) :
    ({ editor with instructions := editor.instructions.retarget i target } : CodeEditor).resolve =
      { editor.resolve with instructions := editor.resolve.instructions.modify i fun x =>
          { x with targets := [editor.instructions.names target] } } := by
  have items : ((editor.instructions.retarget i target).items.map (·.body)).map (·.map editor.instructions.names) =
      ((editor.instructions.items.map (·.body)).map (·.map editor.instructions.names)).modify i fun x =>
        { x with targets := [editor.instructions.names target] } := by
    rw [List.map_map, List.map_map, InstructionList.retarget]
    refine map_modify fun x hx => ?_
    rw [hnode] at hx
    cases hx
    simp only [Function.comp_apply, Instruction.body, BodyInstruction.map, hbranch]
    rfl
  unfold CodeEditor.resolve
  dsimp only
  rw [names_retarget]
  simp only [CodeEditor.body, Body.map, items]

theorem modify_length_append {α : Type} (f : α → α) (l : List α) (x : α) (rest : List α) :
    (l ++ x :: rest).modify l.length f = l ++ f x :: rest := by
  induction l with
  | nil => rfl
  | cons y l ih => simp only [List.cons_append, List.length_cons, List.modify_succ_cons, ih]

/-- The tables of an editor do not matter for what is put into its code. -/
theorem Splicing.bare {editor : CodeEditor} {at_ : Nat} {nodes : List Instruction} (h : Splicing editor at_ nodes) :
    Splicing editor.bare at_ nodes := by
  refine ⟨⟨h.laid, h.point, h.encodable, h.origin, fun v hv => h.named v ?_, h.bound⟩, h.fits⟩
  simp only [CodeEditor.refs, CodeEditor.bare, tableEntries, List.map_nil, List.flatMap_nil, List.append_nil,
    List.mem_append] at hv ⊢
  exact .inl (.inl (.inl (.inl (.inl hv))))

theorem Instruction.Sound.body {node : Instruction} (h : node.Sound) {ρ : Type} (f : Int → ρ) :
    node.body.map f = node.plain := by
  have hblank : node.operand.blank = node.operand :=
    node.operand.mapTargets_of_fixed fun t ht => by rw [h.2] at ht; cases ht
  rw [Instruction.body, BodyInstruction.map, hblank, h.2]
  rfl

/-! ## The stored code -/

/-- The prologue in the graph: its branch goes to the instruction behind it. -/
def prologue (guard value : List Instruction) (returns : UInt8) : List (BodyInstruction (Option Nat)) :=
  guard.map (·.plain) ++ ⟨Opc.ifeq, false, .branch 0, [some (guardNodes guard value returns).length]⟩ ::
    (value ++ [newNode (returnOpcodeFor returns) .none]).map (·.plain)

theorem length_prologue (guard value : List Instruction) (returns : UInt8) :
    (prologue guard value returns).length = (guardNodes guard value returns).length := by
  simp [prologue, guardNodes]

namespace GuardRun

variable {name owner callee : Bytes} {d : MethodDescriptor} {valueCallee : Option Bytes} {argument : Int}
  {cf cf' : ClassFile} (run : GuardRun name d.text owner callee valueCallee argument cf cf')

def isStatic : Bool := hasFlag run.method.accessFlags Acc.static_

/-- The call of the guard. -/
def guard : List Instruction := forwardNodes argument run.parameters run.methodref

def returns : UInt8 := run.returnType.headD 0

def nodes : List Instruction := guardNodes run.guard run.value run.returns

theorem parameters_eq : run.parameters = d.described run.isStatic := (describeParameters_cases run.described).1

theorem argumentCount_le :
    d.argumentCount run.isStatic ≤ parameterCapacity := (describeParameters_cases run.described).2

theorem findMethod : Jni2Hook.findMethod cf name d.text = some (run.index, run.method) :=
  (guardableMethod_ok run.found).1

theorem returnType_eq : run.returnType = scannedReturn d.text := (guardableMethod_ok run.found).2.2.1

theorem interns_owner : Interns cf run.ownerTree := (internClass_ok run.internOwner).1

theorem interns_guard : Interns run.ownerTree run.guardTree := (internMethodref_steps run.internGuard).1

theorem guardedValue : GuardedValue run.returnType run.ownerIndex argument run.guardTree run.valueTree
    valueCallee run.value :=
  guardedValue_ok run.valued

theorem interns_behind : Interns run.valueTree run.tableTree :=
  (buildEntryFrame_ok run.framedBody).1.trans (addFrame_ok run.tabled).1

/-- The trees on the way differ in their pools only. -/
theorem interns : Interns cf run.tableTree :=
  ((run.interns_owner.trans run.interns_guard).trans run.guardedValue.interns).trans run.interns_behind

theorem codeOf_before : codeOf cf run.index = some run.code := by
  obtain ⟨hfind, ⟨code, hcode⟩, -⟩ := guardableMethod_ok run.found
  have hat : codeOf cf run.index = some code :=
    Option.bind_eq_some_iff.mpr ⟨run.method, (findMethod_eq_some.mp hfind).2, hcode⟩
  have hsame : run.ownerTree.methods[run.index]? = cf.methods[run.index]? := by rw [run.interns_owner.rest]
  have := run.interns_owner.edits.codeOf hat hsame
  rw [run.codeAt] at this
  rw [hat, this]

theorem sound_guard : ∀ node ∈ run.guard, node.Sound := by
  refine sound_forwardNodes run.fits ?_
  rw [run.parameters_eq]
  exact mem_described run.argumentCount_le

theorem sound_nodes : ∀ node ∈ run.nodes, node.Sound ∨ node = newNode Opc.ifeq (.branch 0) := by
  intro node hn
  rcases mem_guardNodes hn with hn | hn | hn | hn
  · exact .inl (run.sound_guard node hn)
  · exact .inr hn
  · exact .inl (run.guardedValue.sound run.fits node hn)
  · rw [hn]
    exact .inl (sound_returnOpcodeFor _)

theorem nodes_ne_nil : run.nodes ≠ [] := by
  simp [nodes, guardNodes]

/-- What the insertion has checked and done. -/
theorem edited_eq : (∀ v ∈ run.editor.refs, 0 ≤ offsetToIndex run.editor.instructions v) ∧ ∃ written maxStack,
    typeAnnotationFlush (insertNodes run.editor 0 run.nodes).typeAnnotations
      (insertNodes run.editor 0 run.nodes).otherAttributes = (.ok (), written) ∧
    run.edited = { insertNodes run.editor 0 run.nodes with otherAttributes := written, maxStack := maxStack } := by
  have hc := coherent_of_load run.loaded
  obtain ⟨at_, hat, hnamed, written, hflush, hedited⟩ := codeEditorInsert_ok run.nodes_ne_nil run.inserted
  -- the length of the code that is stored bounds the indices, so the point is the first instruction
  obtain ⟨⟨bytes, hbytes⟩, -⟩ := codeEditorStore_ok run.storedCode
  obtain ⟨-, nameIndex, frames, -, hframed, -⟩ := addFrame_ok run.tabled
  obtain ⟨hencode, hlen⟩ := instructionListEncode_cases hbytes
  have hle := length_le_encodeFrom hencode
  have hitems : run.framed.instructions.items.length =
      (insertNodes run.editor at_ run.nodes).instructions.items.length := by
    rw [hframed]
    simp only [patchBranch, List.length_modify, hedited]
  rw [hitems, length_insertNodes] at hle
  unfold jvmMaxCodeLength at hlen
  obtain rfl : at_ = 0 := insertion_point hc.instructions hc.codeLength (Nat.zero_le _) (by omega) hat
  exact ⟨hnamed, written, _, hflush, hedited⟩

theorem framed_eq : ∃ written maxStack table,
    typeAnnotationFlush (insertNodes run.editor 0 run.nodes).typeAnnotations
      (insertNodes run.editor 0 run.nodes).otherAttributes = (.ok (), written) ∧
    run.framed = { insertNodes run.editor 0 run.nodes with
      otherAttributes := written, maxStack := maxStack, stackMap := some table
      instructions := (insertNodes run.editor 0 run.nodes).instructions.retarget run.guard.length
        (wrapI4 run.body.offset) } ∧
    insertFrame (tableEntries (insertNodes run.editor 0 run.nodes).stackMap) run.frame = .ok table.entries ∧
    (∀ old ∈ run.editor.stackMap, table.nameIndex = old.nameIndex) ∧ (run.editor.stackMap = none →
      constantPoolFind run.tableTree.constantPool (· == .utf8 (text "StackMapTable")) = some table.nameIndex) := by
  obtain ⟨-, written, maxStack, hflush, hedited⟩ := run.edited_eq
  obtain ⟨-, nameIndex, frames, hinsert, hframed, hname, hnew⟩ := addFrame_ok run.tabled
  have hmoved := stackMap_insertNodes run.editor 0 run.nodes
  refine ⟨written, maxStack, ⟨nameIndex, frames⟩, hflush, ?_, ?_, fun old hold => ?_, fun hnone => hnew ?_⟩
  · rw [hframed, hedited]
    rfl
  · rw [hedited] at hinsert
    exact hinsert
  · rw [Option.mem_def.mp hold, Option.map_some] at hmoved
    rw [hedited] at hname
    exact (hname _ hmoved).1
  · rw [hnone, Option.map_none] at hmoved
    rw [hedited]
    exact hmoved

theorem origin : ∀ node ∈ run.nodes, ∀ t ∈ node.operand.targets, t = 0 := by
  intro node hn t ht
  rcases run.sound_nodes node hn with hsound | rfl
  · rw [hsound.2] at ht
    cases ht
  · simpa [newNode, Operand.targets] using ht

theorem spliceable : Spliceable run.editor 0 run.nodes := by
  have hc := coherent_of_load run.loaded
  obtain ⟨hnamed, -⟩ := run.edited_eq
  obtain ⟨⟨bytes, hbytes⟩, -⟩ := codeEditorStore_ok run.storedCode
  obtain ⟨hencode, hlen⟩ := instructionListEncode_cases hbytes
  have hle := length_le_encodeFrom hencode
  obtain ⟨written, maxStack, table, -, hframed, -⟩ := run.framed_eq
  rw [hframed] at hle
  simp only [InstructionList.retarget, List.length_modify, length_insertNodes] at hle
  unfold jvmMaxCodeLength at hlen
  refine ⟨hc.instructions, Nat.zero_le _, fun node hn => ?_, run.origin, hnamed, by omega⟩
  rcases run.sound_nodes node hn with hsound | rfl
  · exact hsound.1
  · exact encodable_newNode (by decide) (by constructor <;> omega)

/-- The branch of the guard among the nodes of the edited code. -/
theorem branchAt : ∃ node, (insertNodes run.editor 0 run.nodes).instructions.items[run.guard.length]? = some node ∧
    node.operand = .branch 0 := by
  have hforget := map_layoutFrom (f := Instruction.operand) (fun _ _ => rfl) 0 (movedItems run.editor 0 run.nodes)
  have hmoved : ((movedItems run.editor 0 run.nodes).map Instruction.operand)[run.guard.length]? =
    some (.branch 0) := by
    simp [movedItems, spliceAt, nodes, guardNodes, newNode]
  rw [← hforget, List.getElem?_map] at hmoved
  rw [run.spliceable.instructions_eq]
  exact Option.map_eq_some_iff.mp hmoved

theorem splicing : Splicing run.editor 0 run.nodes := by
  have h := run.spliceable
  obtain ⟨node, hnode, hbranch⟩ := run.branchAt
  obtain ⟨⟨bytes, hbytes⟩, -⟩ := codeEditorStore_ok run.storedCode
  obtain ⟨hencode, hlen⟩ := instructionListEncode_cases hbytes
  obtain ⟨written, maxStack, table, -, hframed, -⟩ := run.framed_eq
  rw [hframed] at hencode
  refine h.splicing_of_encode hencode hlen (encodable_retarget hnode hbranch ?_ (fitsI4_wrapI4 _)) ?_
  · rw [h.instructions_eq]
    exact encodable_layoutFrom 0 h.encodable_movedItems
  · rw [sizes_retarget hnode hbranch, h.instructions_eq, map_layoutFrom fun _ _ => rfl, movedItems_sizes]

/-- The body starts behind the prologue. -/
theorem bodyOffset : wrapI4 run.body.offset = (insertNodes run.editor 0 run.nodes).instructions.start
    run.nodes.length := by
  obtain ⟨hl, hcode⟩ := run.splicing.laid_insert
  obtain ⟨-, written, maxStack, -, hedited⟩ := run.edited_eq
  have hbody := run.bodyAt
  rw [hedited] at hbody
  have hoffset : run.body.offset = (insertNodes run.editor 0 run.nodes).instructions.start run.nodes.length :=
    hl.offset_eq hbody
  have hle := hl.start_le (j := run.nodes.length)
  rw [hoffset]
  exact wrapI4_of_fits ⟨by omega, by omega⟩

theorem laid_framed : run.framed.instructions.Laid := by
  obtain ⟨node, hnode, hbranch⟩ := run.branchAt
  obtain ⟨written, maxStack, table, -, hframed, -⟩ := run.framed_eq
  rw [hframed]
  exact laid_retarget hnode hbranch run.splicing.laid_insert.1 (fitsI4_wrapI4 _)

/-- The view of the prologue. -/
theorem view_nodes : (run.nodes.map fun node => node.body.map fun _ => some 0).modify run.guard.length
    (fun x => { x with targets := [some run.nodes.length] }) = prologue run.guard run.value run.returns := by
  have sound {l : List Instruction} (hl : ∀ node ∈ l, node.Sound) :
      (l.map fun node => node.body.map fun _ => some 0) = l.map fun node => node.plain (ρ := Option Nat) :=
    List.map_congr_left fun node hn => (hl node hn).body _
  have hskip : ∀ node ∈ run.value ++ [newNode (returnOpcodeFor run.returns) .none], node.Sound := by
    intro node hn
    rcases List.mem_append.mp hn with hn | hn
    · exact run.guardedValue.sound run.fits node hn
    · rw [List.mem_singleton.mp hn]
      exact sound_returnOpcodeFor _
  have hlen : run.guard.length = (run.guard.map fun node => node.plain (ρ := Option Nat)).length := by simp
  rw [nodes, guardNodes, List.map_append, List.map_cons, sound run.sound_guard, sound hskip, hlen,
    modify_length_append, prologue, guardNodes]
  rfl

theorem exceptions_framed : run.framed.exceptions.length ≤ classfileMaxCount := by
  obtain ⟨written, maxStack, table, -, hframed, -⟩ := run.framed_eq
  rw [hframed]
  dsimp only
  rw [exceptions_insertNodes]
  exact (coherent_of_load run.loaded).exceptions

theorem others_framed : ∀ a ∈ run.framed.otherAttributes, a.WellFormed := by
  obtain ⟨written, maxStack, table, hflush, hframed, -⟩ := run.framed_eq
  obtain ⟨-, rfl⟩ := typeAnnotationFlush_ok hflush
  rw [hframed]
  exact fun a ha => (others_fill (coherent_of_load run.loaded).others a ha).wellFormed

/-- The graph of what is stored: the prologue before the old body, with its branch on the first old instruction. -/
theorem graph_stored : ∃ maxStack, codeGraph run.stored = .ok { (run.editor.bare.resolve.spliceShifted 0
      (prologue run.guard run.value run.returns)) with maxStack := maxStack } ∧
    run.stored.attributeNameIndex = run.code.attributeNameIndex := by
  obtain ⟨node, hnode, hbranch⟩ := run.branchAt
  obtain ⟨written, maxStack, table, -, hframed, -⟩ := run.framed_eq
  obtain ⟨hl, -⟩ := run.splicing.laid_insert
  obtain ⟨hgraph, hname⟩ := codeGraph_of_store run.laid_framed run.exceptions_framed run.others_framed run.storedCode
  refine ⟨maxStack, ?_, hname⟩
  have hbare : run.framed.bare = { ({ insertNodes run.editor.bare 0 run.nodes with
      instructions := (insertNodes run.editor.bare 0 run.nodes).instructions.retarget run.guard.length
        (wrapI4 run.body.offset) } : CodeEditor) with maxStack := maxStack } := by
    rw [hframed]
    rfl
  have hview := @resolve_retarget (insertNodes run.editor.bare 0 run.nodes) _ _ _ (wrapI4 run.body.offset) hnode hbranch
  have hnames : (insertNodes run.editor.bare 0 run.nodes).instructions.names (wrapI4 run.body.offset) =
      some run.nodes.length := by
    rw [run.bodyOffset]
    exact hl.names_iff.mpr ⟨by rw [length_insertNodes]; omega, rfl⟩
  rw [hnames, run.splicing.bare.resolve_splice] at hview
  have hspliced : (spliceAt (run.editor.bare.resolve.map (Option.map (shiftPosition 0 run.nodes.length))
      (Option.map (shiftInstruction 0 run.nodes.length))).instructions 0
        (run.nodes.map fun node => node.body.map fun _ => some 0)).modify run.guard.length
          (fun x => { x with targets := [some run.nodes.length] }) =
      spliceAt (run.editor.bare.resolve.map (Option.map (shiftPosition 0 run.nodes.length))
        (Option.map (shiftInstruction 0 run.nodes.length))).instructions 0
          (prologue run.guard run.value run.returns) := by
    rw [spliceAt, List.take_zero, List.nil_append, ← run.view_nodes, spliceAt, List.take_zero, List.nil_append,
      modify_append_left]
    simp [nodes, guardNodes]
  rw [hgraph, hbare]
  refine congrArg Except.ok ?_
  have hlen : (prologue run.guard run.value run.returns).length = run.nodes.length := length_prologue ..
  rw [Body.spliceShifted, hlen, Body.splice]
  rw [Body.splice] at hview
  dsimp only at hview
  rw [hspliced] at hview
  exact congrArg (fun b : Body (Option Nat) => { b with maxStack := maxStack }) hview

end GuardRun

end Jni2Hook
