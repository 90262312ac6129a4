import Jni2Hook.Code.RepeatedInsertion
import Jni2Hook.Transform.ConstructorHooks
import Jni2Hook.Transform.ConstructorTyping
import Jni2Hook.Transform.HookRoundTrip

/-!
# Bodies with hooks

What one transform of a rebuild does to the body of a method: a transform of another method leaves it alone, and a hook
in it is one more call in front of an original instruction.

* `HookedBody`: the body is woven from the original one and the calls of hooks.
* `TypedBody`: the body of a constructor has a typing, so the analysis finds the call that it found first.
* `HookedBody.elsewhere`, `HookedBody.insert`, `TypedBody.elsewhere`, `TypedBody.insert`: the steps.
-/

namespace Jni2Hook

open Lib

/-! ## Other methods -/

section Elsewhere

variable {cf cf' tree : ClassFile} {name descriptor hookName : Bytes} {index : Nat} {method : MemberInfo}

/-- Before the body is loaded, a hook is declared behind the methods that are there. -/
theorem prepareHook_methods (hprepare : prepareHook name descriptor hookName cf = .ok (index, method) tree) :
    ∃ hook, tree.methods = cf.methods ++ [hook] := by
  obtain ⟨⟨index', method'⟩, cf₀, hlookup, h⟩ := exists_of_bind_ok hprepare
  obtain ⟨-, rfl⟩ := lookup_ok hlookup
  obtain ⟨hookNameIndex, cf₁, hname, h⟩ := exists_of_bind_ok h
  obtain ⟨voidIndex, cf₂, hvoid, h⟩ := exists_of_bind_ok h
  obtain ⟨_, _, hget, h⟩ := exists_of_bind_ok h
  cases hget
  obtain ⟨methodref, cf₃, href, h⟩ := exists_of_bind_ok h
  obtain ⟨_, cf₄, happend, h⟩ := exists_of_bind_ok h
  cases h
  have hinterns := ((internUtf8_ok (withCause_ok hname)).1.trans (internUtf8_ok (withCause_ok hvoid)).1).trans
    (internMethodref_ok (withCause_ok href)).1
  refine ⟨hookMethod (hasFlag method.accessFlags Acc.static_) hookNameIndex voidIndex, ?_⟩
  rw [appendMethod_ok happend, hinterns.rest]

/-- The call is stored in the body of the method that was found, and the hook is declared behind all methods. -/
theorem InsertedHook.methods {atOffset point : Nat} {code stored : AttributeInfo} {editor : CodeEditor}
    {methodref : UInt16}
    (h : InsertedHook cf cf' name descriptor atOffset hookName index method tree code stored editor point methodref) :
    (∀ i < cf.methods.length, i ≠ index → cf'.methods[i]? = cf.methods[i]?) ∧
      ∃ m, cf'.methods[index]? = some m ∧ m.accessFlags = method.accessFlags := by
  obtain ⟨hook, hmethods⟩ := prepareHook_methods h.prepared
  have hfound := (findMethod_eq_some.mp h.located).2
  have hindex := (List.getElem?_eq_some_iff.mp hfound).1
  rw [h.stores, storedAt, hmethods]
  refine ⟨fun i hi hne => ?_, ?_⟩
  · rw [List.getElem?_modify_ne _ _ (Ne.symm hne), List.getElem?_append_left hi]
  · rw [List.getElem?_modify_eq, List.getElem?_append_left hindex, hfound]
    exact ⟨_, rfl, rfl⟩

/-- A replacement leaves the methods alone that were there, but for the one it replaces. -/
theorem makeNative_methods {copyName : Bytes} (hcount : cf.constantPool.count ≤ classfileMaxCount)
    (h : makeNative name descriptor copyName cf = .ok () cf') : Edits cf cf' ∧
    ∃ index method, findMethod cf name descriptor = some (index, method) ∧
      ∀ i < cf.methods.length, i ≠ index → cf'.methods[i]? = cf.methods[i]? := by
  obtain ⟨index, method, nameIndex, hreplaceable, hgrows, -, -, -, hcf'⟩ :=
    makeNative_ok (h := ⟨name, descriptor, copyName⟩) h hcount
  have hmethods := congrArg ClassFile.methods hcf'
  have hindex := (List.getElem?_eq_some_iff.mp (findMethod_eq_some.mp hreplaceable.found).2).1
  have other (i : Nat) (hi : i < cf.methods.length) (hne : i ≠ index) : cf'.methods[i]? = cf.methods[i]? := by
    rw [hmethods]
    dsimp only
    rw [List.getElem?_modify_ne _ _ (Ne.symm hne), List.getElem?_append_left hi]
  refine ⟨⟨hgrows, by rw [hcf'], by rw [hcf'], fun {i m} hm => ?_⟩, index, method, hreplaceable.found, other⟩
  have hi := (List.getElem?_eq_some_iff.mp hm).1
  by_cases hne : i = index
  · have hat : cf'.methods[i]? = some { memberInfoSetNative m true with
        attributes := m.attributes.eraseP (isCode cf'.constantPool) } := by
      rw [hmethods, ← hne]
      dsimp only
      rw [List.getElem?_modify_eq, List.getElem?_append_left hi, hm]
      rfl
    exact ⟨_, hat, rfl, rfl⟩
  · exact ⟨m, (other i hi hne).trans hm, rfl, rfl⟩

end Elsewhere

/-! ## The calls in a body -/

/-- The call of a hook, by the constant that names it. -/
def hookCall (cf : ClassFile) (isStatic : Bool) (hookName : Bytes) : List Instruction :=
  match hookRef cf hookName with
  | some methodref => hookNodes isStatic methodref
  | none => []

/-- The body of a method is woven from the original one and the calls of the hooks with these names. -/
structure HookedBody (original : InstructionList) (isStatic : Bool) (names : Nat → List Bytes) (cf : ClassFile)
    (index : Nat) : Prop where
  body : ∃ code list, codeOf cf index = some code ∧ codeInstructions code = .ok list ∧
    WovenFrom original list fun k => (names k).flatMap (hookCall cf isStatic)
  declared : ∀ k, ∀ name ∈ names k, (hookRef cf name).isSome = true

section Hooked

variable {original : InstructionList} {isStatic : Bool} {names : Nat → List Bytes} {cf cf' : ClassFile} {index : Nat}

theorem hookCall_of_ref {hookName : Bytes} {methodref : UInt16} (href : hookRef cf hookName = some methodref) :
    hookCall cf isStatic hookName = hookNodes isStatic methodref := by
  rw [hookCall, href]

/-- A hook that is declared keeps its call. -/
theorem hookCall_edits (h : Edits cf cf') {hookName : Bytes} (hdeclared : (hookRef cf hookName).isSome = true) :
    hookCall cf' isStatic hookName = hookCall cf isStatic hookName := by
  obtain ⟨methodref, href⟩ := Option.isSome_iff_exists.mp hdeclared
  rw [hookCall_of_ref href, hookCall_of_ref (h.hookRef href)]

theorem HookedBody.calls_eq (h : HookedBody original isStatic names cf index) (hedits : Edits cf cf') :
    (fun k => (names k).flatMap (hookCall cf' isStatic)) = fun k => (names k).flatMap (hookCall cf isStatic) := by
  funext k
  exact List.flatMap_congr fun name hname => hookCall_edits hedits (h.declared k name hname)

theorem HookedBody.declared_edits (h : HookedBody original isStatic names cf index) (hedits : Edits cf cf') :
    ∀ k, ∀ name ∈ names k, (hookRef cf' name).isSome = true := by
  intro k name hname
  obtain ⟨methodref, href⟩ := Option.isSome_iff_exists.mp (h.declared k name hname)
  rw [hedits.hookRef href]
  rfl

/-- An edit of other methods leaves the body as it is. -/
theorem HookedBody.elsewhere (h : HookedBody original isStatic names cf index) (hedits : Edits cf cf')
    (hsame : cf'.methods[index]? = cf.methods[index]?) : HookedBody original isStatic names cf' index := by
  obtain ⟨code, list, hcode, hlist, hwoven⟩ := h.body
  refine ⟨⟨code, list, hedits.codeOf hcode hsame, hlist, ?_⟩, h.declared_edits hedits⟩
  rw [h.calls_eq hedits]
  exact hwoven

/-- Up to the first hook, the body begins like the original one. -/
theorem HookedBody.start (h : HookedBody original isStatic names cf index) {code : AttributeInfo} {pool : ConstantPool}
    {editor : CodeEditor} (hcode : codeOf cf index = some code) (hload : codeEditorLoad code pool = .ok editor) :
    original.items.length ≤ editor.instructions.items.length ∧
      ∀ j ≤ original.items.length, (∀ k, k < j → names k = []) →
        editor.instructions.start j = original.start j := by
  obtain ⟨code', list, hcode', hlist, hwoven⟩ := h.body
  rw [hcode] at hcode'
  cases hcode'
  rw [codeInstructions_of_load hload] at hlist
  cases hlist
  exact ⟨hwoven.length_le, fun j hj hbelow => hwoven.start j hj fun k hk => by rw [hbelow k hk]; rfl⟩

/-- One more hook, at a point before which there is none yet. -/
theorem HookedBody.insert (h : HookedBody original isStatic names cf index) {name descriptor hookName : Bytes}
    {atOffset j : Nat} {method : MemberInfo} {tree : ClassFile} {code stored : AttributeInfo} {editor : CodeEditor}
    {methodref : UInt16} (hhook : InsertedHook cf cf' name descriptor atOffset hookName index method tree code stored
      editor (original.start j) methodref) (hstatic : hasFlag method.accessFlags Acc.static_ = isStatic)
    (hj : j ≤ original.items.length) (hbelow : ∀ k, k < j → names k = []) :
    HookedBody original isStatic (prependBlock names j [hookName]) cf' index := by
  have hinto := hhook.into
  have hedits : Edits cf cf' := hhook.edits.trans (hhook.stores ▸ edits_storedAt tree index stored)
  have href : hookRef cf' hookName = some methodref :=
    (hhook.stores ▸ edits_storedAt tree index stored : Edits tree cf').hookRef hhook.ref
  obtain ⟨code', list, hcode, hlist, hwoven⟩ := h.body
  rw [hinto.found] at hcode
  cases hcode
  rw [codeInstructions_of_load hinto.loaded] at hlist
  cases hlist
  obtain ⟨edited, extraStack, hinsert, hstore⟩ := hinto.inserted
  obtain ⟨-, reloaded, hre, -, -, hwoven'⟩ := hwoven.insert hinto.loaded hj (fun k hk => by rw [hbelow k hk]; rfl)
    hinto.isCall.encodable hinto.isCall.ne_nil hinsert hstore
  refine ⟨⟨stored, reloaded.instructions, hinto.kept, codeInstructions_of_load hre, ?_⟩, fun k name hname => ?_⟩
  · have hcalls : (fun k => (prependBlock names j [hookName] k).flatMap (hookCall cf' isStatic)) =
        prependBlock (fun k => (names k).flatMap (hookCall cf isStatic)) j (hookNodes isStatic methodref) := by
      rw [← h.calls_eq hedits]
      funext k
      by_cases hk : k = j
      · rw [hk, prependBlock_self, prependBlock_self, List.flatMap_append, List.flatMap_singleton, hookCall_of_ref href]
      · rw [prependBlock_of_ne hk, prependBlock_of_ne hk]
    rw [hcalls]
    rw [hstatic] at hwoven'
    exact hwoven'
  · unfold prependBlock at hname
    split at hname
    · rcases List.mem_append.mp hname with hname | hname
      · rw [List.mem_singleton.mp hname, href]
        rfl
      · exact h.declared_edits hedits k name hname
    · exact h.declared_edits hedits k name hname

end Hooked

/-! ## The typing of a hook -/

section Block

variable {cf : ClassFile} {hookName : Bytes} {methodref : UInt16}

/-- What the constant of a hook says. -/
theorem hookRef_at (hcount : cf.constantPool.count ≤ classfileMaxCount) (href : hookRef cf hookName = some methodref) :
    ∃ natIndex nameIndex voidIndex,
      constantPoolAt cf.constantPool methodref = some (.methodref cf.thisClass natIndex) ∧
      constantPoolAt cf.constantPool natIndex = some (.nameAndType nameIndex voidIndex) ∧
      constantPoolUtf8 cf.constantPool nameIndex = some hookName ∧
      constantPoolUtf8 cf.constantPool voidIndex = some (text "()V") := by
  obtain ⟨nameIndex, voidIndex, natIndex, hname, hvoid, hnat, hmethod⟩ := hookRef_eq_some.mp href
  exact ⟨natIndex, nameIndex, voidIndex, constantPoolAt_of_find hcount (by simp) hmethod,
    constantPoolAt_of_find hcount (by simp) hnat, utf8_of_find hcount hname, utf8_of_find hcount hvoid⟩

/-- A hook takes no arguments and returns nothing. -/
theorem memberDescriptor_hook (hcount : cf.constantPool.count ≤ classfileMaxCount)
    (href : hookRef cf hookName = some methodref) : memberDescriptor cf.constantPool methodref = some (0, 0) := by
  obtain ⟨natIndex, nameIndex, voidIndex, hmethod, hnat, -, hvoid⟩ := hookRef_at hcount href
  have hslots : descriptorSlots cf.constantPool voidIndex = some (0, 0) := by
    rw [descriptorSlots, hvoid]
    decide
  simp only [memberDescriptor, hmethod, Option.bind_eq_bind, Option.bind_some, memberNatIndex, hnat, hslots]

/-- The call of a hook initialises nothing. -/
theorem isInitializingCall_hook (hcount : cf.constantPool.count ≤ classfileMaxCount)
    (href : hookRef cf hookName = some methodref) (hname : hookName ≠ text "<init>") (opcode : UInt8) :
    isInitializingCall cf (newNode opcode (.cpIndex methodref)) = none := by
  obtain ⟨natIndex, nameIndex, voidIndex, hmethod, hnat, htext, -⟩ := hookRef_at hcount href
  rw [Option.eq_none_iff_forall_ne_some]
  intro arguments hcall
  obtain ⟨index, _, _, _, _, hoperand, -, hat, -, hat', hinit, -⟩ := isInitializingCall_eq_some.mp hcall
  cases hoperand
  rw [hmethod] at hat
  cases hat
  rw [hnat] at hat'
  cases hat'
  rw [constantPoolUtf8Equals, htext, beq_iff_eq, Option.some.injEq] at hinit
  exact hname hinit

/-- The slots before, between and behind the nodes of a hook. -/
def hookTypes (slots : Option TraceSlots) (isStatic : Bool) (k : Nat) : Option TraceSlots :=
  if isStatic = false ∧ k = 1 then slots.map fun s => ⟨s.locals, s.stack ++ [s.locals.getD 0 0]⟩ else slots

/-- `aload_0` pushes what the first local holds. -/
theorem slots_of_load {s : TraceSlots} {m : Nat} {work : TraceWork}
    (h : executeSlots cf (newNode Opc.aload_0 .none) ⟨s.locals, s.stack, m⟩ = some work) :
    work.slots = ⟨s.locals, s.stack ++ [s.locals.getD 0 0]⟩ := by
  have hrun : executeSlots cf (newNode Opc.aload_0 .none) ⟨s.locals, s.stack, m⟩ =
      loadLocal ⟨s.locals, s.stack, m⟩ 0 1 true := rfl
  rw [hrun, loadLocal] at h
  split at h
  · cases h
  · rw [if_pos rfl, pushSlot] at h
    split at h
    · cases h
    · cases h
      rfl

/-- The call of a hook pops its receiver. -/
theorem slots_of_hook (hmember : memberDescriptor cf.constantPool methodref = some (0, 0)) (isStatic : Bool)
    {s : TraceSlots} {m : Nat} {work : TraceWork}
    (h : executeSlots cf (newNode (if isStatic then Opc.invokestatic else Opc.invokespecial) (.cpIndex methodref))
      ⟨s.locals, s.stack, m⟩ = some work) :
    work.slots = ⟨s.locals, s.stack.take (s.stack.length - if isStatic then 0 else 1)⟩ := by
  let node := newNode (if isStatic then Opc.invokestatic else Opc.invokespecial) (.cpIndex methodref)
  have hrun : executeSlots cf node ⟨s.locals, s.stack, m⟩ =
      executeInvoke cf (if isStatic then 184 else 183) node ⟨s.locals, s.stack, m⟩ := by
    cases isStatic <;> rfl
  have hpop : executeInvoke cf (if isStatic then 184 else 183) node ⟨s.locals, s.stack, m⟩ =
      popSlots ⟨s.locals, s.stack, m⟩ (if isStatic then 0 else 1) := by
    rw [executeInvoke, show node.operand.memberIndex = methodref from rfl, hmember]
    cases isStatic <;> simp [replaceSlots, pushOther]
  rw [hrun, hpop] at h
  generalize (if isStatic then 0 else 1) = count at h ⊢
  rw [popSlots] at h
  split at h
  · cases h
  · cases h
    rfl

theorem blockTyping_hookNodes (hcount : cf.constantPool.count ≤ classfileMaxCount)
    (href : hookRef cf hookName = some methodref) (hname : hookName ≠ text "<init>") (isStatic : Bool)
    (slots : Option TraceSlots) : BlockTyping cf (hookNodes isStatic methodref) (hookTypes slots isStatic) := by
  have hmember := memberDescriptor_hook hcount href
  have hresolved (opcode : UInt8) : (memberDescriptor cf.constantPool
      (newNode opcode (.cpIndex methodref)).operand.memberIndex).isSome = true := by
    rw [show (newNode opcode (.cpIndex methodref)).operand.memberIndex = methodref from rfl, hmember]
    rfl
  cases isStatic with
  | true =>
    have hnodes {k : Nat} {node : Instruction} (hnode : (hookNodes true methodref)[k]? = some node) :
        node = newNode Opc.invokestatic (.cpIndex methodref) :=
      List.mem_singleton.mp (List.mem_of_getElem? hnode)
    refine ⟨fun {k node s} hnode htype m work hwork => ?_, fun {k node} hnode _ => ?_, fun {k node} hnode => ?_⟩
    · rw [hnodes hnode] at hwork
      refine ⟨s, htype, ?_⟩
      rw [slots_of_hook hmember true hwork]
      simp only [if_true, Nat.sub_zero, List.take_length]
      exact .refl s
    · rw [hnodes hnode]
      exact hresolved _
    · rw [hnodes hnode]
      exact isInitializingCall_hook hcount href hname _
  | false =>
    have hnodes {k : Nat} {node : Instruction} (hnode : (hookNodes false methodref)[k]? = some node) :
        (k = 0 ∧ node = newNode Opc.aload_0 .none) ∨
          (k = 1 ∧ node = newNode Opc.invokespecial (.cpIndex methodref)) := by
      cases k with
      | zero =>
        cases hnode
        exact .inl ⟨rfl, rfl⟩
      | succ k =>
        cases k with
        | zero =>
          cases hnode
          exact .inr ⟨rfl, rfl⟩
        | succ k => cases hnode
    refine ⟨fun {k node s} hnode htype m work hwork => ?_, fun {k node} hnode hreads => ?_, fun {k node} hnode => ?_⟩
    · obtain ⟨rfl, rfl⟩ | ⟨rfl, rfl⟩ := hnodes hnode
      · have hslots : slots = some s := htype
        refine ⟨_, by rw [hslots]; rfl, ?_⟩
        rw [slots_of_load hwork]
        exact .refl _
      · -- what the load pushed is what the call pops
        obtain ⟨s₀, hslots, rfl⟩ := Option.map_eq_some_iff.mp htype
        refine ⟨s₀, hslots, ?_⟩
        rw [slots_of_hook hmember false hwork]
        simp only [Bool.false_eq_true, if_false, List.length_append, List.length_singleton, Nat.add_sub_cancel,
          List.take_left']
        exact .refl s₀
    · obtain ⟨rfl, rfl⟩ | ⟨rfl, rfl⟩ := hnodes hnode
      · cases hreads
      · exact hresolved _
    · obtain ⟨rfl, rfl⟩ | ⟨rfl, rfl⟩ := hnodes hnode
      · rfl
      · exact isInitializingCall_hook hcount href hname _

end Block

/-! ## Typed bodies -/

/-- The body of a constructor has a typing with the call of index `call`. -/
structure TypedBody (maxLocals maxStack call : Nat) (cf : ClassFile) (index : Nat) : Prop where
  count : cf.constantPool.count ≤ classfileMaxCount
  named : .utf8 (text "<init>") ∈ cf.constantPool.entries
  body : ∃ code pool editor types, codeOf cf index = some code ∧ codeEditorLoad code pool = .ok editor ∧
    editor.maxLocals.toNat = maxLocals ∧ maxStack ≤ editor.maxStack.toNat ∧
    editor.instructions.codeLength ≤ jvmMaxCodeLength ∧
    TraceTyping cf editor.instructions maxLocals maxStack call types

section Typed

variable {maxLocals maxStack call : Nat} {cf cf' : ClassFile} {index : Nat}

/-- An edit of other methods leaves the body typed. -/
theorem TypedBody.elsewhere (h : TypedBody maxLocals maxStack call cf index) (hedits : Edits cf cf')
    (hcount : cf'.constantPool.count ≤ classfileMaxCount) (hsame : cf'.methods[index]? = cf.methods[index]?) :
    TypedBody maxLocals maxStack call cf' index := by
  obtain ⟨code, pool, editor, types, hcode, hload, hlocals, hstack, hsize, htyping⟩ := h.body
  exact ⟨hcount, hedits.grows.kept.subset h.named, code, pool, editor, types, hedits.codeOf hcode hsame, hload, hlocals,
    hstack, hsize, htyping.grows hedits.grows hedits.thisClass hedits.superClass h.named⟩

/-- The analysis finds the typed call, wherever the body is loaded. -/
theorem TypedBody.found (h : TypedBody maxLocals maxStack call cf index) {tree : ClassFile} (hedits : Edits cf tree)
    {code : AttributeInfo} {editor : CodeEditor} {pool : ConstantPool} (hcode : codeOf cf index = some code)
    (hload : codeEditorLoad code pool = .ok editor) {a : Nat} (hfound : constructorInitOffset tree editor = .found a) :
    call + 1 < editor.instructions.items.length ∧ a = editor.instructions.start (call + 1) := by
  obtain ⟨code', pool', editor', types, hcode', hload', hlocals, hstack, hsize, htyping⟩ := h.body
  rw [hcode] at hcode'
  cases hcode'
  have hbare := bare_of_load hload' hload
  rw [← instructions_of_bare hbare] at hsize htyping
  have hgrown := htyping.grows hedits.grows hedits.thisClass hedits.superClass h.named
  obtain ⟨node, s, hnode, -, hinit⟩ := hgrown.found rfl (by rw [maxLocals_of_bare hbare]; exact hlocals)
    (by rw [maxStack_of_bare hbare]; exact hstack) hfound
  obtain ⟨arguments, -, -, hend⟩ := initializes_eq_some.mp hinit
  rw [offset_end (coherent_of_load hload).instructions hsize hnode] at hend
  exact ⟨hgrown.inside, hend.symm⟩

/-- The body with one more hook behind the call. -/
theorem TypedBody.insert (h : TypedBody maxLocals maxStack call cf index) {name descriptor hookName : Bytes}
    {atOffset j : Nat} {method : MemberInfo} {tree : ClassFile} {code stored : AttributeInfo} {editor : CodeEditor}
    {methodref : UInt16} (hhook : InsertedHook cf cf' name descriptor atOffset hookName index method tree code stored
      editor (editor.instructions.start j) methodref) (hcall : call < j) (hj : j < editor.instructions.items.length)
    (hname : hookName ≠ text "<init>") (hcount : cf'.constantPool.count ≤ classfileMaxCount) :
    TypedBody maxLocals maxStack call cf' index := by
  have hinto := hhook.into
  have hedits : Edits cf cf' := hhook.edits.trans (hhook.stores ▸ edits_storedAt tree index stored)
  have href : hookRef cf' hookName = some methodref :=
    (hhook.stores ▸ edits_storedAt tree index stored : Edits tree cf').hookRef hhook.ref
  obtain ⟨code', pool', editor', types, hcode', hload', hlocals, hstack, hsize, htyping⟩ := h.body
  rw [hinto.found] at hcode'
  cases hcode'
  have hbare := bare_of_load hload' hinto.loaded
  rw [← instructions_of_bare hbare] at hsize htyping
  have hgrown := htyping.grows hedits.grows hedits.thisClass hedits.superClass h.named
  obtain ⟨edited, extraStack, hinsert, hstore⟩ := hinto.inserted
  obtain ⟨hinserting, reloaded, hre, hins, hview⟩ := reload_inserted_at hinto.loaded (Nat.le_of_lt hj)
    hinto.isCall.encodable hinto.isCall.ne_nil hinsert hstore
  have hblock := blockTyping_hookNodes hcount href hname (hasFlag method.accessFlags Acc.static_) (types j)
  have hinserted := hgrown.insert hinserting hcall hj hblock (by simp [hookTypes]) (by
    cases hasFlag method.accessFlags Acc.static_ <;> simp [hookTypes, hookNodes])
  have hrelocated := relocated_of_insert hedits (Nat.le_of_lt hj) hinto.isCall.ne_nil
    (fun n hn => (hinto.isCall.encodable n hn).2) (maxStack_of_insert hinto.isCall.ne_nil hinsert) hview
  rw [← hins] at hinserted
  refine ⟨hcount, hedits.grows.kept.subset h.named, stored, tree.constantPool, reloaded, _, hinto.kept, hre, ?_, ?_, ?_,
    hinserted⟩
  · rw [hrelocated.locals, maxLocals_of_bare hbare]
    exact hlocals
  · have hgrew := hrelocated.stack
    rw [maxStack_of_bare hbare] at hgrew
    omega
  · rw [hins]
    exact hinserting.laid_insert.2

end Typed

end Jni2Hook
