import Jni2Hook.Transform.GuardFlow

/-!
# Where a call is inserted

`offset_to_index` takes the length of the code for an index, as the ends of ranges need it; `code_editor_insert` takes
the same index for the point of an insertion.

* `InsertionCall.site`: the body a call inserts into, and the end of the initialising call in a constructor.
* `InsertedBefore`: an instruction of the old body follows the inserted run, and control leaves the new body only where
  it left the old one.
* `inserted_before_instruction_iff`: this holds exactly when the point is not the end of the code.
-/

namespace Jni2Hook

open Lib

/-! ## The calls -/

/-- A call of one of the two transforms that insert at an offset. -/
inductive InsertionCall
  | hook (name descriptor : Option Bytes) (atOffset : UInt32) (hookName : Option Bytes)
  | forward (name descriptor : Option Bytes) (atOffset : UInt32) (owner callee : Option Bytes) (argument : Int)
      (forwardArguments : Bool)

def InsertionCall.run : InsertionCall → Transform Unit
  | .hook name descriptor atOffset hookName => classTransformInsertCall name descriptor atOffset hookName
  | .forward name descriptor atOffset owner callee argument forwardArguments =>
    classTransformInsertStaticCall name descriptor atOffset owner callee argument forwardArguments

/-- The offset that is given. -/
def InsertionCall.atOffset : InsertionCall → Nat
  | .hook _ _ atOffset _ | .forward _ _ atOffset _ _ _ _ => atOffset.toNat

/-- The steps of `class_transform_insert_call` before the body is loaded. -/
def prepareHook (name descriptor hookName : Bytes) : Transform (Nat × MemberInfo) := do
  let (index, method) ← lookup fun cf =>
    if hasFlag cf.accessFlags Acc.interface then .error .interface_
    else if (findMethod cf hookName (text "()V")).isSome then .error .nameInUse
    else insertableMethod cf name descriptor
  let hookNameIndex ← withCause (classFileInternUtf8 hookName)
  let voidIndex ← withCause (classFileInternUtf8 (text "()V"))
  let _ ← withCause (classFileInternMethodref (← get).thisClass hookName (text "()V"))
  appendMethod (hookMethod (hasFlag method.accessFlags Acc.static_) hookNameIndex voidIndex)
  return (index, method)

/-- The steps of `class_transform_insert_static_call` before the body is loaded. -/
def prepareForward (name descriptor owner : Bytes) (argument : Int) : Transform (Nat × MemberInfo) := do
  if argumentFits argument = false then throw .badOffset
  let (index, method) ← lookup fun cf => insertableMethod cf name descriptor
  let _ ← withCause (classFileInternClass owner)
  return (index, method)

def InsertionCall.prepare : InsertionCall → Transform (Nat × MemberInfo)
  | .hook (some name) (some descriptor) _ (some hookName) => prepareHook name descriptor hookName
  | .forward (some name) (some descriptor) _ (some owner) (some _) argument _ =>
    prepareForward name descriptor owner argument
  | _ => throw .methodNotFound

/-- Where a call inserts. -/
structure InsertionSite where
  index : Nat
  code : AttributeInfo
  instructions : InstructionList
  /-- In a constructor, the end of the initialising call. -/
  initialised : Option Nat

/-- The body the call finds, and the end of the initialising call in the tree as it is then. -/
def InsertionCall.site (call : InsertionCall) (cf : ClassFile) : Option InsertionSite :=
  match call.prepare cf with
  | .error _ _ => none
  | .ok (index, method) tree => do
    let code ← codeOf cf index
    let editor ← (codeEditorLoad code tree.constantPool).toOption
    let initialised := if isInstanceInitializer tree method then
        match constructorInitOffset tree editor with
        | .found offset => some offset
        | _ => none
      else none
    return ⟨index, code, editor.instructions, initialised⟩

/-- The point that is used: the given offset, or in a constructor the later of it and the end of the initialising
call. -/
def InsertionSite.point (site : InsertionSite) (atOffset : Nat) : Nat := max atOffset (site.initialised.getD 0)

/-! ## The property -/

/-- A run stands before instruction `i` of the old body, at the offset of it: the instruction follows the run, and
control leaves the new body only from where it left the old one. -/
structure InsertedBefore (instructions : InstructionList) (old new : Body (Option Nat)) (run : List Instruction)
    (point i : Nat) : Prop where
  boundary : ∃ node, instructions.items[i]? = some node ∧ node.offset = point
  inserted : ∀ k < run.length, new.instructions[i + k]? = run[k]?.map (·.plain)
  follows : ∃ node, old.instructions[i]? = some node ∧
    new.instructions[i + run.length]? = some (node.map (Option.map (shiftPosition i run.length)))
  leaves : ∀ k kind, (kind, new.instructions.length) ∈ new.successors k →
    (kind, old.instructions.length) ∈ old.successors (projectIndex i run.length k)

theorem insertedBefore_insert {instructions : InstructionList} {b : Body (Option Nat)} {at_ : Nat} {node : Instruction}
    {nodes : List Instruction} {extraStack : UInt16} (hnode : instructions.items[at_]? = some node)
    (hat : at_ < b.instructions.length) (hs : ∀ n ∈ nodes, n.isStraightLine = true) :
    InsertedBefore instructions b (b.insert at_ nodes extraStack) nodes node.offset at_ := by
  have hlength : (b.insert at_ nodes extraStack).instructions.length = b.instructions.length + nodes.length := by
    simp [Body.insert, Body.splice, Body.map, spliceAt]
    omega
  refine ⟨⟨node, hnode, rfl⟩, fun k hk => instructions_insert_new nodes extraStack (Nat.le_of_lt hat) hk,
    ⟨b.instructions[at_], List.getElem?_eq_getElem hat, ?_⟩, fun k kind h => ?_⟩
  · have hmoved := instructions_insert_moved nodes extraStack (Nat.le_of_lt hat) at_
    rw [List.getElem?_eq_getElem hat, Option.map_some, shiftInstruction, if_neg (Nat.lt_irrefl _)] at hmoved
    exact hmoved
  · rw [hlength] at h
    rcases edge_insert_cases hat hs h with ⟨-, hj, -, hlt⟩ | ⟨old, target, hold, rfl, htarget⟩
    · -- the last node of the run is followed by an old instruction
      omega
    · unfold shiftPosition at htarget
      split at htarget
      · omega
      · obtain rfl : target = b.instructions.length := by omega
        exact hold

/-! ## The nodes -/

/-- Every parameter that is found is read by a load, from a slot that is counted up by at most two for each of them. -/
theorem describeLoop_loads : ∀ {fuel : Nat} {descriptor : Bytes} {found parameters : List ForwardedParameter}
    {slot : UInt16}, describeLoop fuel descriptor found slot = some parameters → found.length ≤ parameterCapacity →
    slot.toNat ≤ 2 * found.length → (∀ p ∈ found, p.loadOpcode ∈ loadOpcodes ∧ p.slot.toNat < 2 ^ 8) →
    ∀ p ∈ parameters, p.loadOpcode ∈ loadOpcodes ∧ p.slot.toNat < 2 ^ 8
  | 0, _, _, _, _, h, _, _, _ => nomatch h
  | fuel + 1, descriptor, found, parameters, slot, h, hcap, hslot, hall => by
    unfold describeLoop at h
    split at h
    · cases h
    · cases h
      exact hall
    · split at h
      · cases h
      · rename_i hroom
        split at h
        · cases h
        · obtain ⟨⟨opcode, width⟩, hload, h⟩ := Option.bind_eq_some_iff.mp h
          obtain ⟨after, -, h⟩ := Option.bind_eq_some_iff.mp h
          have hopcode : opcode ∈ loadOpcodes ∧ width.toNat ≤ 2 := by
            unfold loadOf at hload
            split at hload <;> cases hload <;> exact ⟨by decide, by decide⟩
          unfold parameterCapacity at hcap hroom
          have hlt : found.length < 64 := by omega
          refine describeLoop_loads h ?_ ?_ fun p hp => ?_
          · rw [List.length_append, List.length_singleton, parameterCapacity]
            omega
          · rw [List.length_append, List.length_singleton, UInt16.toNat_add]
            omega
          · rcases List.mem_append.mp hp with hp | hp
            · exact hall p hp
            · rw [List.mem_singleton.mp hp]
              exact ⟨hopcode.1, by dsimp only; omega⟩

theorem describeParameters_loads {descriptor : Bytes} {isStatic : Bool} {parameters : List ForwardedParameter}
    (h : describeParameters descriptor isStatic = some parameters) :
    ∀ p ∈ parameters, p.loadOpcode ∈ loadOpcodes ∧ p.slot.toNat < 2 ^ 8 := by
  unfold describeParameters at h
  split at h
  · split at h
    · exact describeLoop_loads h (Nat.zero_le _) (by decide) fun p hp => absurd hp List.not_mem_nil
    · refine describeLoop_loads h (by decide) (by decide) fun p hp => ?_
      rw [List.mem_singleton.mp hp]
      exact ⟨by decide, by decide⟩
  · cases h

/-- A run that the two transforms insert: it can be encoded, goes straight on and ends with the call. -/
structure CallRun (run : List Instruction) : Prop where
  encodable : ∀ n ∈ run, n.Encodable ∧ n.isStraightLine = true
  call : ∃ opcode ref, run.getLast? = some (newNode opcode (.cpIndex ref)) ∧
    (opcode = Opc.invokestatic ∨ opcode = Opc.invokespecial)

theorem CallRun.ne_nil {run : List Instruction} (h : CallRun run) : run ≠ [] := by
  obtain ⟨opcode, ref, hlast, -⟩ := h.call
  rintro rfl
  cases hlast

theorem callRun_hookNodes (isStatic : Bool) (methodref : UInt16) : CallRun (hookNodes isStatic methodref) := by
  cases isStatic with
  | true =>
    refine ⟨fun n hn => ?_, Opc.invokestatic, methodref, rfl, .inl rfl⟩
    rw [List.mem_singleton.mp hn]
    exact ⟨(sound_cpIndex methodref (by decide)).1, rfl⟩
  | false =>
    refine ⟨fun n hn => ?_, Opc.invokespecial, methodref, rfl, .inr rfl⟩
    rcases List.mem_cons.mp hn with rfl | hn
    · exact ⟨(sound_none (by decide)).1, rfl⟩
    · rw [List.mem_singleton.mp hn]
      exact ⟨(sound_cpIndex methodref (by decide)).1, rfl⟩

theorem callRun_forwardNodes {argument : Int} {parameters : List ForwardedParameter} (methodref : UInt16)
    (hfits : argumentFits argument = true)
    (hall : ∀ p ∈ parameters, p.loadOpcode ∈ loadOpcodes ∧ p.slot.toNat < 2 ^ 8) :
    CallRun (forwardNodes argument parameters methodref) := by
  refine ⟨fun n hn => ⟨(sound_forwardNodes hfits hall n hn).1, ?_⟩, Opc.invokestatic, methodref, ?_, .inl rfl⟩
  · simp only [forwardNodes, List.mem_cons, List.mem_append, List.mem_map, List.not_mem_nil, or_false] at hn
    have table : ∀ o ∈ loadOpcodes, ∀ slot, (newNode o (.local_ slot)).isStraightLine = true := by
      intro o ho slot
      simp only [loadOpcodes, List.mem_cons, List.not_mem_nil, or_false] at ho
      rcases ho with rfl | rfl | rfl | rfl | rfl <;> rfl
    rcases hn with rfl | ⟨p, hp, rfl⟩ | rfl
    · rfl
    · exact table _ (hall p hp).1 _
    · rfl
  · rw [forwardNodes, ← List.cons_append, List.getLast?_concat]

/-! ## The steps of a call -/

/-- What a call that succeeds has done, from the tree in which it loads the body on. -/
structure InsertedInto (cf cf' : ClassFile) (atOffset index : Nat) (method : MemberInfo) (tree : ClassFile)
    (code stored : AttributeInfo) (editor : CodeEditor) (point : Nat) (run : List Instruction) : Prop where
  found : codeOf cf index = some code
  loaded : codeEditorLoad code tree.constantPool = .ok editor
  moved : constructorOffset tree editor (isInstanceInitializer tree method) atOffset = .ok point
  isCall : CallRun run
  inserted : ∃ edited extraStack, codeEditorInsert editor point run extraStack = (.ok (), edited) ∧
    codeEditorStore edited code = .ok stored
  kept : codeOf cf' index = some stored

theorem insertableMethod_ok {cf : ClassFile} {name descriptor : Bytes} {index : Nat} {method : MemberInfo}
    (h : insertableMethod cf name descriptor = .ok (index, method)) :
    findMethod cf name descriptor = some (index, method) ∧ cf.methods[index]? = some method ∧
      ∃ code, codeOf cf index = some code := by
  unfold insertableMethod at h
  cases hfind : findMethod cf name descriptor with
  | none =>
    rw [hfind] at h
    cases h
  | some found =>
    obtain ⟨i, m⟩ := found
    rw [hfind] at h
    dsimp only at h
    split at h
    · cases h
    split at h
    · cases h
    split at h
    · cases h
    split at h
    · cases h
    · rename_i hcode
      cases h
      have hmethod := (findMethod_eq_some.mp hfind).2
      refine ⟨rfl, hmethod, ?_⟩
      cases hfound : findCode cf method with
      | none =>
        rw [hfound] at hcode
        exact absurd rfl hcode
      | some code => exact ⟨code, Option.bind_eq_some_iff.mpr ⟨method, hmethod, hfound⟩⟩

theorem edits_append (cf : ClassFile) (method : MemberInfo) :
    Edits cf { cf with methods := cf.methods ++ [method] } := by
  refine ⟨.refl _, rfl, rfl, fun {i m} hm => ⟨m, ?_, rfl, rfl⟩⟩
  rw [List.getElem?_append_left (List.getElem?_eq_some_iff.mp hm).1]
  exact hm

/-- The attribute that is stored has the name of the one it is stored over. -/
theorem attributeNameIndex_of_store {editor : CodeEditor} {code stored : AttributeInfo}
    (h : codeEditorStore editor code = .ok stored) : stored.attributeNameIndex = code.attributeNameIndex := by
  obtain ⟨bytecode, -, h⟩ := bind_ok h
  obtain ⟨attributes, -, h⟩ := bind_ok h
  obtain ⟨rfl, -⟩ := takeBuffer_ok h
  rfl

/-- The end of both calls. -/
theorem insertedInto_of_steps {cf tree cf₁ cf' : ClassFile} {atOffset index point : Nat} {method : MemberInfo}
    {code : AttributeInfo} {editor edited : CodeEditor} {run : List Instruction} {extraStack : UInt16}
    (hcode : codeOf cf index = some code) (hedits : Edits cf cf₁) (hsame : cf₁.methods[index]? = cf.methods[index]?)
    (hload : codeEditorLoad code tree.constantPool = .ok editor)
    (hpoint : constructorOffset tree editor (isInstanceInitializer tree method) atOffset = .ok point)
    (hrun : CallRun run)
    (hinsert : codeEditorInsert editor point run extraStack = (.ok (), edited))
    (hstore : storeCode index edited code cf₁ = .ok () cf') :
    ∃ stored, cf' = storedAt cf₁ index stored ∧
      InsertedInto cf cf' atOffset index method tree code stored editor point run := by
  obtain ⟨stored, hstored, rfl⟩ := storeCode_ok hstore
  exact ⟨stored, rfl, hcode, hload, hpoint, hrun, ⟨edited, extraStack, hinsert, hstored⟩,
    codeOf_storedAt (hedits.codeOf hcode hsame) (attributeNameIndex_of_store hstored)⟩

/-- What `class_transform_insert_call` has done: the hook is declared, and named by the call that is inserted. -/
structure InsertedHook (cf cf' : ClassFile) (name descriptor : Bytes) (atOffset : Nat) (hookName : Bytes) (index : Nat)
    (method : MemberInfo) (tree : ClassFile) (code stored : AttributeInfo) (editor : CodeEditor) (point : Nat)
    (methodref : UInt16) : Prop where
  prepared : prepareHook name descriptor hookName cf = .ok (index, method) tree
  located : findMethod cf name descriptor = some (index, method)
  edits : Edits cf tree
  ref : hookRef tree hookName = some methodref
  stores : cf' = storedAt tree index stored
  into : InsertedInto cf cf' atOffset index method tree code stored editor point
    (hookNodes (hasFlag method.accessFlags Acc.static_) methodref)

theorem insertCall_ok {name descriptor hookName : Bytes} {atOffset : Nat} {cf cf' : ClassFile}
    (h : insertCall name descriptor atOffset hookName cf = .ok () cf') :
    ∃ index method tree code stored editor point methodref,
      InsertedHook cf cf' name descriptor atOffset hookName index method tree code stored editor point methodref := by
  obtain ⟨⟨index, method⟩, cf₀, hlookup, h⟩ := exists_of_bind_ok h
  obtain ⟨hguards, hcf⟩ := lookup_ok hlookup
  rw [hcf] at hlookup h
  obtain ⟨hnameIndex, cf₁, hname, h⟩ := exists_of_bind_ok h
  obtain ⟨voidIndex, cf₂, hvoid, h⟩ := exists_of_bind_ok h
  obtain ⟨_, _, hget, h⟩ := exists_of_bind_ok h
  cases hget
  obtain ⟨methodref, cf₃, href, h⟩ := exists_of_bind_ok h
  obtain ⟨_, cf₄, happend, h⟩ := exists_of_bind_ok h
  obtain ⟨_, _, hget, h⟩ := exists_of_bind_ok h
  cases hget
  have hprepare : prepareHook name descriptor hookName cf = .ok (index, method) cf₄ := by
    simp only [prepareHook, run_bind, hlookup, hname, hvoid, href, happend, run_get, run_pure]
  split at hguards
  · cases hguards
  split at hguards
  · cases hguards
  obtain ⟨hfind, hmethod, code, hcode⟩ := insertableMethod_ok hguards
  obtain ⟨hmethodref, href⟩ := internMethodref_ok (withCause_ok href)
  have hinterns := ((internUtf8_ok (withCause_ok hname)).1.trans
    (internUtf8_ok (withCause_ok hvoid)).1).trans hmethodref
  have happended := appendMethod_ok happend
  have hedits : Edits _ cf₄ := hinterns.edits.trans (happended ▸ edits_append cf₃ _)
  have hsame := congrArg (fun tree : ClassFile => tree.methods[index]?) happended
  dsimp only at hsame
  rw [hinterns.rest, List.getElem?_append_left (List.getElem?_eq_some_iff.mp hmethod).1] at hsame
  rw [run_tryCatch] at h
  cases hinsert : insertHookCall index method atOffset methodref cf₄ with
  | error e t =>
    rw [hinsert] at h
    obtain ⟨_, _, -, hthrow⟩ := exists_of_bind_ok h
    cases hthrow
  | ok u t =>
    rw [hinsert] at h
    cases h
    obtain ⟨⟨code', editor⟩, _, hload, h⟩ := exists_of_bind_ok hinsert
    obtain ⟨hcode', hload, hcf⟩ := loadCode_ok hload
    rw [hedits.codeOf hcode hsame] at hcode'
    cases hcode'
    rw [hcf] at h
    obtain ⟨point, _, hpoint, h⟩ := exists_of_bind_ok h
    obtain ⟨hpoint, hcf⟩ := lookup_ok hpoint
    rw [hcf] at h
    obtain ⟨edited, _, hnodes, hstore⟩ := exists_of_bind_ok h
    obtain ⟨hnodes, hcf⟩ := insertNodesAt_ok hnodes
    rw [hcf] at hstore
    obtain ⟨stored, hstored, hinto⟩ := insertedInto_of_steps hcode hedits hsame hload hpoint
      (callRun_hookNodes _ _) hnodes
      hstore
    exact ⟨index, method, _, _, stored, editor, point, methodref, hprepare, hfind, hedits,
      (happended ▸ edits_append cf₃ _ : Edits cf₃ cf₄).hookRef href, hstored, hinto⟩

theorem insertStaticCall_ok {name descriptor owner callee : Bytes} {atOffset : Nat} {argument : Int}
    {forwardArguments : Bool} {cf cf' : ClassFile}
    (h : insertStaticCall name descriptor atOffset owner callee argument forwardArguments cf = .ok () cf') :
    ∃ index method tree code stored editor point run,
      prepareForward name descriptor owner argument cf = .ok (index, method) tree ∧
      InsertedInto cf cf' atOffset index method tree code stored editor point run := by
  cases hfits : argumentFits argument with
  | false =>
    unfold insertStaticCall at h
    rw [if_pos hfits] at h
    cases h
  | true =>
    unfold insertStaticCall at h
    rw [if_neg (by rw [hfits]; decide)] at h
    obtain ⟨⟨index, method⟩, _, hlookup, h⟩ := exists_of_bind_ok h
    obtain ⟨hguards, hcf⟩ := lookup_ok hlookup
    rw [hcf] at hlookup h
    obtain ⟨ownerIndex, tree, howner, h⟩ := exists_of_bind_ok h
    have hprepare : prepareForward name descriptor owner argument cf = .ok (index, method) tree := by
      simp only [prepareForward, hfits, Bool.true_eq_false, if_false, run_bind, hlookup, howner, run_pure]
    obtain ⟨-, hmethod, code, hcode⟩ := insertableMethod_ok hguards
    have hinterns := (internClass_ok (withCause_ok howner)).1
    obtain ⟨⟨code', editor⟩, _, hload, h⟩ := exists_of_bind_ok h
    obtain ⟨hcode', hload, hcf⟩ := loadCode_ok hload
    rw [hinterns.edits.codeOf hcode (by rw [hinterns.rest])] at hcode'
    cases hcode'
    rw [hcf] at h
    obtain ⟨point, _, hpoint, h⟩ := exists_of_bind_ok h
    obtain ⟨hpoint, hcf⟩ := lookup_ok hpoint
    rw [hcf] at h
    cases hdescribed : describeParameters descriptor (hasFlag method.accessFlags Acc.static_) with
    | none =>
      rw [hdescribed] at h
      cases h
    | some described =>
      rw [hdescribed] at h
      dsimp only at h
      cases hdescriptor : buildCalleeDescriptor (if forwardArguments then described else []) 0x56 with
      | none =>
        rw [hdescriptor] at h
        cases h
      | some calleeDescriptor =>
        rw [hdescriptor] at h
        obtain ⟨methodref, cf₂, href, h⟩ := exists_of_bind_ok h
        obtain ⟨edited, _, hnodes, hstore⟩ := exists_of_bind_ok h
        obtain ⟨hnodes, hcf⟩ := insertNodesAt_ok hnodes
        rw [hcf] at hstore
        have hall := describeParameters_loads hdescribed
        have hrun : CallRun (forwardNodes argument (if forwardArguments then described else []) methodref) := by
          refine callRun_forwardNodes methodref hfits fun p hp => ?_
          split at hp
          · exact hall p hp
          · cases hp
        have hinterns' := hinterns.trans (internMethodref_steps (withCause_ok href)).1
        obtain ⟨stored, -, hinto⟩ := insertedInto_of_steps hcode hinterns'.edits
          (by rw [hinterns'.rest]) hload hpoint hrun
          hnodes hstore
        exact ⟨index, method, _, _, stored, editor, point, _, hprepare, hinto⟩

theorem InsertionCall.run_ok {call : InsertionCall} {cf cf' : ClassFile} (h : call.run cf = .ok () cf') :
    ∃ index method tree code stored editor point run, call.prepare cf = .ok (index, method) tree ∧
      InsertedInto cf cf' call.atOffset index method tree code stored editor point run := by
  cases call with
  | hook name descriptor atOffset hookName =>
    rcases name with _ | name
    · cases h
    rcases descriptor with _ | descriptor
    · cases h
    rcases hookName with _ | hookName
    · cases h
    obtain ⟨index, method, tree, code, stored, editor, point, methodref, hhook⟩ := insertCall_ok h
    exact ⟨index, method, tree, code, stored, editor, point, _, hhook.prepared, hhook.into⟩
  | forward name descriptor atOffset owner callee argument forwardArguments =>
    rcases name with _ | name
    · cases h
    rcases descriptor with _ | descriptor
    · cases h
    rcases owner with _ | owner
    · cases h
    rcases callee with _ | callee
    · cases h
    exact insertStaticCall_ok h

/-! ## The point -/

/-- What the trace has found is a `u4`. -/
def TraceLoop.FoundU4 (loop : TraceLoop) : Prop := ∀ a, loop.found = some a → a < 2 ^ 32

theorem found_propagateAll (work : TraceWork) (loop : TraceLoop) (targets : List Nat) :
    (targets.foldl (propagate work) loop).found = loop.found := by
  induction targets generalizing loop with
  | nil => rfl
  | cons target rest ih =>
    rw [List.foldl_cons, ih]
    unfold propagate
    dsimp only
    split <;> rfl

theorem TraceLoop.FoundU4.visit {cf : ClassFile} {editor : CodeEditor} {loop : TraceLoop} (h : loop.FoundU4)
    (index : Nat) : (traceVisit cf editor loop index).FoundU4 := by
  unfold traceVisit
  split
  · rename_i node slots hnode hslots
    split
    · rename_i after hafter
      have hlt : after < 2 ^ 32 := by
        unfold initializes at hafter
        split at hafter
        · split at hafter
          · cases hafter
            exact Nat.mod_lt _ (by decide)
          · cases hafter
        · cases hafter
      unfold recordFound
      split
      · intro a ha
        cases ha
        exact hlt
      · split
        · exact h
        · exact h
    · split
      · exact h
      · rename_i work hwork
        unfold TraceLoop.FoundU4
        rw [found_propagateAll]
        exact h
  · exact h

theorem TraceLoop.FoundU4.run {cf : ClassFile} {editor : CodeEditor} (fuel : Nat) {loop : TraceLoop}
    (h : loop.FoundU4) :
    (traceLoop cf editor fuel loop).FoundU4 := by
  induction fuel generalizing loop with
  | zero => exact h
  | succ fuel ih =>
    unfold traceLoop
    split
    · exact h
    · exact ih (@TraceLoop.FoundU4.visit _ _ (dequeue loop).2 h _)

theorem constructorInitOffset_lt {cf : ClassFile} {editor : CodeEditor} {a : Nat}
    (h : constructorInitOffset cf editor = .found a) : a < 2 ^ 32 := by
  unfold constructorInitOffset at h
  dsimp only at h
  split at h
  · cases h
  split at h
  · cases h
  split at h
  · cases h
  · rename_i offset hoffset
    cases h
    exact TraceLoop.FoundU4.run _ (fun a ha => by cases ha) a hoffset

/-- In a constructor, an offset that is accepted is moved behind the call that is found. -/
theorem constructorOffset_ok {cf : ClassFile} {editor : CodeEditor} {atOffset point : Nat}
    (h : constructorOffset cf editor true atOffset = .ok point) :
    ∃ e, constructorInitOffset cf editor = .found e ∧ point = max atOffset e := by
  rw [constructorOffset, if_pos rfl] at h
  cases hanswer : constructorInitOffset cf editor with
  | found e =>
    rw [hanswer] at h
    cases h
    refine ⟨e, rfl, ?_⟩
    split <;> omega
  | missing =>
    rw [hanswer] at h
    cases h
  | ambiguous =>
    rw [hanswer] at h
    cases h

/-- The point that the code uses is the one of the site. -/
theorem InsertedInto.point_eq {cf cf' tree : ClassFile} {call : InsertionCall} {index point : Nat} {method : MemberInfo}
    {code stored : AttributeInfo} {editor : CodeEditor} {run : List Instruction}
    (hprepare : call.prepare cf = .ok (index, method) tree)
    (h : InsertedInto cf cf' call.atOffset index method tree code stored editor point run) :
    ∃ site, call.site cf = some site ∧ site.index = index ∧ site.code = code ∧ site.instructions = editor.instructions ∧
      site.point call.atOffset = point ∧ point < 2 ^ 32 := by
  have hat : call.atOffset < 2 ^ 32 := by
    cases call <;> exact UInt32.toNat_lt _
  have hload : (codeEditorLoad code tree.constantPool).toOption = some editor := by
    rw [h.loaded]
    rfl
  have hmoved := h.moved
  simp only [InsertionCall.site, hprepare, h.found, Option.bind_eq_bind, Option.bind_some, hload]
  refine ⟨_, rfl, rfl, rfl, rfl, ?_⟩
  dsimp only [InsertionSite.point]
  cases hconstructor : isInstanceInitializer tree method with
  | true =>
    rw [hconstructor] at hmoved
    obtain ⟨safe, hinit, hpoint⟩ := constructorOffset_ok hmoved
    have hsafe := constructorInitOffset_lt hinit
    rw [if_pos rfl, hinit]
    dsimp only [Option.getD_some]
    omega
  | false =>
    rw [hconstructor] at hmoved
    cases hmoved
    exact ⟨Nat.max_zero _, hat⟩

/-- The point is the start of an instruction, or the end of the code. -/
theorem InsertedInto.names_point {cf cf' tree : ClassFile} {atOffset index point : Nat} {method : MemberInfo}
    {code stored : AttributeInfo} {editor : CodeEditor} {run : List Instruction}
    (h : InsertedInto cf cf' atOffset index method tree code stored editor point run) (hlt : point < 2 ^ 32) :
    ∃ at_, editor.instructions.names point = some at_ ∧ at_ ≤ editor.instructions.items.length ∧
      point = editor.instructions.start at_ := by
  have hl := (coherent_of_load h.loaded).instructions
  obtain ⟨edited, extraStack, hinsert, -⟩ := h.inserted
  obtain ⟨k, hk, -⟩ := codeEditorInsert_ok h.isCall.ne_nil hinsert
  obtain ⟨at_, hnames⟩ := hl.names_of_offsetToIndex (v := wrapI4 point) (by omega)
  obtain ⟨hat, hstart⟩ := hl.names_iff.mp hnames
  have hwrap : wrapI4 point = point := wrapI4_nonneg (by omega) (by omega) (by omega)
  rw [hwrap] at hnames hstart
  exact ⟨at_, hnames, hat, by omega⟩

/-- The graphs of the two attributes, when the point is the start of instruction `at_` or the end of the code. -/
theorem graph_inserted {pool : ConstantPool} {code stored : AttributeInfo} {editor edited : CodeEditor} {at_ : Nat}
    {run : List Instruction} {extraStack : UInt16} (hload : codeEditorLoad code pool = .ok editor)
    (hpoint : at_ ≤ editor.instructions.items.length) (hrun : CallRun run)
    (hinsert : codeEditorInsert editor (editor.instructions.start at_) run extraStack = (.ok (), edited))
    (hstore : codeEditorStore edited code = .ok stored) :
    ∃ old new, codeGraph code = .ok old ∧ codeGraph stored = .ok new ∧ new = old.insert at_ run extraStack ∧
      old.instructions.length = editor.instructions.items.length := by
  obtain ⟨-, reloaded, hre, -, hview⟩ := reload_inserted_at hload hpoint hrun.encodable hrun.ne_nil hinsert hstore
  refine ⟨_, _, codeGraph_of_load hload, codeGraph_of_load hre,
    ?_, by simp [CodeEditor.resolve, CodeEditor.body, Body.map, CodeEditor.bare]⟩
  have bare (e : CodeEditor) : e.bare.resolve = { e.resolve with
      lineNumbers := none, locals := none, localTypes := none, stackMap := none, otherAttributes := [],
      annotations := [] } := rfl
  rw [bare, bare, hview]
  rfl

/-- **An inserted call is followed by an instruction exactly when it is not put at the end of the code.** For every tree
and every call that succeeds: the run is inserted at what the point names, and it stands before an instruction of the
old body, with control leaving the new body only where it left the old one, if and only if the given offset is not the
length of the code and, in a constructor, the initialising call does not end there. -/
theorem inserted_before_instruction_iff {call : InsertionCall} {cf cf' : ClassFile} (h : call.run cf = .ok () cf') :
    ∃ site stored old new run at_ extraStack, call.site cf = some site ∧ codeOf cf site.index = some site.code ∧
      codeInstructions site.code = .ok site.instructions ∧ codeOf cf' site.index = some stored ∧
      codeGraph site.code = .ok old ∧ codeGraph stored = .ok new ∧ CallRun run ∧
      site.instructions.names (site.point call.atOffset) = some at_ ∧ new = old.insert at_ run extraStack ∧
      ((∃ i, InsertedBefore site.instructions old new run (site.point call.atOffset) i) ↔
        call.atOffset ≠ site.instructions.codeLength ∧ site.initialised ≠ some site.instructions.codeLength) := by
  obtain ⟨index, method, tree, code, stored, editor, point, run, hprepare, hinto⟩ := call.run_ok h
  obtain ⟨site, hsite, rfl, rfl, hinstructions, hpoint, hlt⟩ := hinto.point_eq hprepare
  obtain ⟨edited, extraStack, hinsert, hstore⟩ := hinto.inserted
  have hc := coherent_of_load hinto.loaded
  have hl := hc.instructions
  obtain ⟨at_, hnames, hat, rfl⟩ := hinto.names_point hlt
  obtain ⟨old, new, hold, hnew, rfl, hlength⟩ := graph_inserted hinto.loaded hat hinto.isCall hinsert hstore
  refine ⟨site, stored, old, _, run, at_, extraStack, hsite, hinto.found, ?_, hinto.kept, hold, hnew,
    hinto.isCall, ?_, rfl, ⟨?_, ?_⟩⟩
  · rw [hinstructions]
    exact codeInstructions_of_load hinto.loaded
  · rw [hinstructions, hpoint]
    exact hnames
  · rintro ⟨i, ⟨⟨node, hnode, hoffset⟩, -⟩⟩
    rw [hinstructions] at hnode
    have hbelow := (List.getElem?_eq_some_iff.mp hnode).1
    have hend := InstructionList.start_lt hbelow (Nat.le_refl _)
    rw [hl.offset_eq hnode] at hoffset
    rw [hl.start_length] at hend
    rw [hinstructions]
    unfold InsertionSite.point at hoffset
    refine ⟨by omega, fun hinit => ?_⟩
    rw [hinit, Option.getD_some] at hoffset
    omega
  · rintro ⟨hoffset, hinit⟩
    rw [hinstructions] at hoffset hinit
    have hne : at_ ≠ editor.instructions.items.length := by
      rintro rfl
      rw [hl.start_length, InsertionSite.point] at hpoint
      cases hsafe : site.initialised with
      | none =>
        rw [hsafe, Option.getD_none] at hpoint
        omega
      | some safe =>
        rw [hsafe, Option.getD_some] at hpoint
        rw [hsafe, ne_eq, Option.some.injEq] at hinit
        omega
    have hbelow : at_ < editor.instructions.items.length := by omega
    have hnode := List.getElem?_eq_getElem hbelow
    have hbefore := @insertedBefore_insert _ _ _ _ _ extraStack hnode (hlength ▸ hbelow)
      fun n hn => (hinto.isCall.encodable n hn).2
    rw [hl.offset_eq hnode, ← hpoint, ← hinstructions] at hbefore
    exact ⟨at_, hbefore⟩

/-- A method that returns at once. -/
def returnClass : ClassFile := guardedClass (text "()V") [Opc.return_] [0, 0]

/-- The hook `h` in the method `m`, at an offset. -/
def hookAt (offset : UInt32) : InsertionCall := .hook (some (text "m")) (some (text "()V")) offset (some (text "h"))

theorem inserted_before_instruction_return : ∃ cf' site old new run i, (hookAt 0).run returnClass = .ok () cf' ∧
    (hookAt 0).site returnClass = some site ∧ codeGraph site.code = .ok old ∧
    InsertedBefore site.instructions old new run 0 i := by
  obtain ⟨cf', h⟩ := ok_of_succeeded (r := (hookAt 0).run returnClass) (by decide +kernel)
  obtain ⟨site, stored, old, new, run, at_, extraStack, hsite, -, -, -, hold, -, -, -, -, hiff⟩ :=
    inserted_before_instruction_iff h
  have hat : ((hookAt 0).site returnClass).map (fun s => (s.instructions.codeLength, s.initialised)) =
    some (1, none) := by
    decide +kernel
  rw [hsite, Option.map_some, Option.some.injEq, Prod.mk.injEq] at hat
  have hzero : (hookAt 0).atOffset = 0 := rfl
  obtain ⟨i, hi⟩ := hiff.mpr ⟨by rw [hat.1, hzero]; decide, by rw [hat.2]; exact nofun⟩
  rw [hzero, InsertionSite.point, hat.2] at hi
  exact ⟨cf', site, old, new, run, i, h, hsite, hold, hi⟩

/-- The hook is put behind the `return`, and nothing follows it. -/
theorem call_after_last_instruction : ∃ cf' site stored old new, (hookAt 1).run returnClass = .ok () cf' ∧
    (hookAt 1).site returnClass = some site ∧ codeOf cf' site.index = some stored ∧ codeGraph site.code = .ok old ∧
    codeGraph stored = .ok new ∧ site.point (hookAt 1).atOffset = site.instructions.codeLength ∧
    (∀ run i, ¬InsertedBefore site.instructions old new run (site.point (hookAt 1).atOffset) i) ∧
    (.fallThrough, new.instructions.length) ∈ new.successors 1 ∧
    ∀ k kind, (kind, old.instructions.length) ∉ old.successors k := by
  obtain ⟨cf', h⟩ := ok_of_succeeded (r := (hookAt 1).run returnClass) (by decide +kernel)
  have hend : endState (hookAt 1).run returnClass = cf' := by rw [endState, h]
  have hsite : ((hookAt 1).site returnClass).map (fun s => (s.index, s.instructions, s.initialised)) =
      some (0, ⟨[⟨0, Opc.return_, false, .none⟩], 1⟩, none) := by decide +kernel
  have hold : ((hookAt 1).site returnClass).map (fun s => (codeGraph s.code).toOption) = some (some
      ⟨1, 2, [straight Opc.return_ .none], [], none, none, none, none, [], []⟩) := by decide +kernel
  have hnew : ((codeOf (endState (hookAt 1).run returnClass) 0).map codeGraph).map Except.toOption = some (some
      ⟨2, 2, [straight Opc.return_ .none, straight Opc.invokestatic (.cpIndex 11)], [], none, none, none,
        none, [], []⟩) := by
    decide +kernel
  rw [hend] at hnew
  obtain ⟨site, hfound, hfields⟩ := Option.map_eq_some_iff.mp hsite
  simp only [Prod.mk.injEq] at hfields
  obtain ⟨hindex, hlist, hinit⟩ := hfields
  rw [hfound, Option.map_some, Option.some.injEq] at hold
  obtain ⟨_, hmap, hnew⟩ := Option.map_eq_some_iff.mp hnew
  obtain ⟨stored, hstored, rfl⟩ := Option.map_eq_some_iff.mp hmap
  have hpoint : site.point (hookAt 1).atOffset = 1 := by
    rw [InsertionSite.point, hinit]
    rfl
  refine ⟨cf', site, stored, _, _, h, hfound, hindex ▸ hstored, ok_of_toOption hold,
    ok_of_toOption hnew, ?_, ?_, ?_, ?_⟩
  · rw [hpoint, hlist]
  · rintro run i ⟨⟨node, hnode, hoffset⟩, -⟩
    rw [hpoint] at hoffset
    rw [hlist] at hnode
    cases i with
    | zero =>
      cases hnode
      cases hoffset
    | succ i => cases hnode
  · decide
  · rintro (_ | k) kind hmem
    · simp [Body.successors, straight, BodyInstruction.jumps, Body.returns, Opc.return_, Opc.ret, Body.handlers,
        fallsThrough] at hmem
    · simp [Body.successors] at hmem

end Jni2Hook
