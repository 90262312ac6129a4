import Jni2Hook.Transform.GuardFlow

/-!
# Guarded calls that run past an array

`class_transform_insert_guarded_call` puts its nodes into an array of 70. 64 arguments, the call of `value_callee`, the
cast of its result and the return make 71. And the name of the class of the cast is the result type without its first
and last character, which a type that is a lone `L` does not have.

* `insertGuardedCall_overrun_iff`: the calls that go past the array of nodes or take more than there is of the type.
* `edited_tree_round_trip_iff`: what sequences of transforms leave behind when none of their calls does.
-/

namespace Jni2Hook

open Lib

/-! ## The guarded call -/

/-- A call with a `value_callee` for a result of a reference type that comes to the cast of the value: its type is a
lone `L`, or the nodes with the cast are one too many. -/
def Overruns (name descriptor owner callee : Bytes) (valueCallee : Option Bytes) (argument : Int) (cf : ClassFile) :
    Prop :=
  ∃ (start : GuardStart name descriptor owner callee argument cf) (answer letters : Bytes) (valueRef : UInt16)
    (tree : ClassFile), valueCallee = some answer ∧ isReference start.returnType = true ∧
    valueLetters start.returnType 3 = some letters ∧ start.returnType.length < 512 ∧
    classFileInternMethodref start.ownerIndex answer (text "(I)Ljava/lang/Object;") start.guardTree =
      .ok valueRef tree ∧
    (start.returnType = [0x4C] ∨ start.parameters.length = parameterCapacity ∧
      ∃ castIndex castTree, classFileInternClass (castName start.returnType) tree = .ok castIndex castTree)

theorem describeLoop_length : ∀ {fuel : Nat} {descriptor : Bytes} {found parameters : List ForwardedParameter}
    {slot : UInt16}, describeLoop fuel descriptor found slot = some parameters → found.length ≤ parameterCapacity →
    parameters.length ≤ parameterCapacity
  | 0, _, _, _, _, h, _ => nomatch h
  | fuel + 1, descriptor, found, parameters, slot, h, hcap => by
    unfold describeLoop at h
    split at h
    · cases h
    · cases h
      exact hcap
    · split at h
      · cases h
      · rename_i hroom
        split at h
        · cases h
        · obtain ⟨_, -, h⟩ := Option.bind_eq_some_iff.mp h
          obtain ⟨_, -, h⟩ := Option.bind_eq_some_iff.mp h
          refine describeLoop_length h ?_
          rw [List.length_append, List.length_singleton]
          omega

/-- No more parameters are described than there is room for. -/
theorem describeParameters_length {descriptor : Bytes} {isStatic : Bool} {parameters : List ForwardedParameter}
    (h : describeParameters descriptor isStatic = some parameters) : parameters.length ≤ parameterCapacity := by
  unfold describeParameters at h
  split at h
  · split at h
    · exact describeLoop_length h (Nat.zero_le _)
    · exact describeLoop_length h (by decide)
  · cases h

/-- The nodes are written past their array when they are too many, and only then. -/
theorem insertGuard_overrun_iff {index : Nat} {code : AttributeInfo} {editor : CodeEditor} {descriptor : Bytes}
    {isStatic : Bool} {guard value : List Instruction} {returns : UInt8} {forwarded : UInt16} {cf : ClassFile} :
    (∃ tree, insertGuard index code editor descriptor isStatic guard value returns forwarded cf =
      .error .overrun tree) ↔ nodeCapacity < (guardNodes guard value returns).length := by
  rw [guardNodes]
  unfold insertGuard
  dsimp only
  constructor
  · rintro ⟨tree, h⟩
    by_contra hfits
    rw [if_neg hfits] at h
    obtain ⟨edited, _, -, h⟩ := (within_insertNodesAt _ _ _ _).of_bind h overrun_of_eq
    cases hbody : edited.instructions.items[(guardNodes guard value returns).length]? with
    | none =>
      rw [guardNodes] at hbody
      rw [hbody] at h
      cases h
    | some body =>
      rw [guardNodes] at hbody
      rw [hbody] at h
      obtain ⟨frame, _, -, h⟩ := (within_withCause _).of_bind h overrun_of_eq
      obtain ⟨framed, _, -, h⟩ := (within_addFrame _ _).of_bind h overrun_of_eq
      exact (within_storeCode _ _ _).ne_overrun h
  · intro hlong
    rw [if_pos hlong]
    exact ⟨cf, rfl⟩

theorem eq_letter_of_short {returnType : Bytes} (h : returnType.headD 0 = 0x4C ∧ returnType.length < 2) :
    returnType = [0x4C] := by
  obtain ⟨hhead, hshort⟩ := h
  match returnType with
  | [] => cases hhead
  | [c] => rw [show c = 0x4C from hhead]
  | _ :: _ :: _ => exact absurd hshort (by simp)

/-- The name of a class is taken from a lone `L` when that is the result type of a call with a `value_callee`. -/
theorem guardedValue_overrun_iff {returnType : Bytes} {ownerIndex : UInt16}
    {valueCallee : Option Bytes} {argument : Int}
    {cf : ClassFile} : (∃ tree, guardedValue returnType ownerIndex valueCallee argument cf = .error .overrun tree) ↔
      ∃ answer valueRef tree, valueCallee = some answer ∧ returnType = [0x4C] ∧
        classFileInternMethodref ownerIndex answer (text "(I)Ljava/lang/Object;") cf = .ok valueRef tree := by
  constructor
  · rintro ⟨tree, h⟩
    unfold guardedValue at h
    dsimp only at h
    split at h
    · cases h
    cases valueCallee with
    | none => cases h
    | some answer =>
      cases hletters : valueLetters returnType 3 with
      | none =>
        rw [hletters] at h
        cases h
      | some letters =>
        rw [hletters] at h
        obtain ⟨valueRef, refTree, hcall, h⟩ := (within_withCause _).of_bind h overrun_of_eq
        split at h
        · rename_i hreference
          rw [if_pos hreference] at hcall
          split at h
          · cases h
          split at h
          · rename_i hshort
            exact ⟨answer, valueRef, refTree, rfl, eq_letter_of_short hshort, withCause_ok hcall⟩
          · obtain ⟨_, _, -, h⟩ := (within_withCause _).of_bind h overrun_of_eq
            cases h
        · cases h
  · rintro ⟨answer, valueRef, tree, rfl, rfl, hcall⟩
    refine ⟨tree, ?_⟩
    unfold guardedValue
    dsimp only
    rw [if_neg (by decide), show valueLetters [0x4C] 3 = some [0x4C] from rfl]
    dsimp only
    rw [if_pos (by decide), run_bind, withCause_of_ok hcall]
    rfl

/-- The nodes of a call that was inserted, or would be, by the parameters and the value. -/
theorem length_guardNodes (argument : Int) (parameters : List ForwardedParameter) (methodref : UInt16)
    (value : List Instruction) (returns : UInt8) :
    (guardNodes (forwardNodes argument parameters methodref) value returns).length =
      parameters.length + value.length + 4 := by
  simp only [guardNodes, forwardNodes, List.length_append, List.length_cons, List.length_map, List.length_nil]
  omega

/-- **The calls that run past an array.** A guarded call writes past the array of its nodes, or copies more than there
is of a type, exactly when `Overruns`. -/
theorem insertGuardedCall_overrun_iff {name descriptor owner callee : Bytes}
    {valueCallee : Option Bytes} {argument : Int}
    {cf : ClassFile} :
    (∃ tree, insertGuardedCall name descriptor owner callee valueCallee argument cf = .error .overrun tree) ↔
      Overruns name descriptor owner callee valueCallee argument cf := by
  constructor
  · rintro ⟨tree, h⟩
    obtain ⟨start⟩ := exists_guardStart h overrun_of_eq
    have hparameters := describeParameters_length start.described
    rw [start.call_eq, run_bind] at h
    cases hvalue : guardedValue start.returnType start.ownerIndex valueCallee argument start.guardTree with
    | error e valueTree =>
      rw [hvalue] at h
      cases h
      obtain ⟨answer, valueRef, refTree, hanswer, hletter, hcall⟩ := guardedValue_overrun_iff.mp ⟨_, hvalue⟩
      refine ⟨start, answer, [0x4C], valueRef, refTree, hanswer, ?_, ?_, ?_, hcall, .inl hletter⟩ <;>
      · rw [hletter]
        decide
    | ok value valueTree =>
      rw [hvalue] at h
      have hlong := insertGuard_overrun_iff.mp ⟨tree, h⟩
      rw [length_guardNodes, nodeCapacity] at hlong
      unfold parameterCapacity at hparameters
      -- only the call of `value_callee` with its cast makes that many nodes
      cases guardedValue_ok hvalue with
      | void => simp only [List.length_nil] at hlong; omega
      | constant => simp only [List.length_cons, List.length_nil] at hlong; omega
      | call _ hcall =>
        cases hcall with
        | primitive => simp only [List.length_cons, List.length_nil] at hlong; omega
        | @reference letters valueRef castIndex refTree hreference hletters hlength hcall hcast =>
          simp only [List.length_cons, List.length_nil] at hlong
          rw [valueDescriptor, if_pos hreference] at hcall
          exact ⟨start, _, letters, valueRef, refTree, rfl, hreference, hletters, hlength, hcall,
            .inr ⟨by unfold parameterCapacity; omega, castIndex, valueTree, hcast⟩⟩
  · rintro ⟨start, answer, letters, valueRef, refTree, rfl, hreference, hletters, hlength, hcall, hpast⟩
    rw [start.call_eq, run_bind]
    by_cases hletter : start.returnType = [0x4C]
    · obtain ⟨tree, hvalue⟩ := guardedValue_overrun_iff.mpr ⟨answer, valueRef, refTree, rfl, hletter, hcall⟩
      rw [hvalue]
      exact ⟨tree, rfl⟩
    · obtain ⟨hmany, castIndex, castTree, hcast⟩ := hpast.resolve_left hletter
      have hnamed : ¬(start.returnType.headD 0 = 0x4C ∧ start.returnType.length < 2) :=
        fun hshort => hletter (eq_letter_of_short hshort)
      rw [guardedValue_of_ok hreference hletters hlength hnamed hcall hcast]
      refine insertGuard_overrun_iff.mpr ?_
      rw [length_guardNodes, hmany, answerNodes]
      simp [nodeCapacity, parameterCapacity]

/-! ## Sequences of calls -/

/-- The call ends with a status of the source. -/
def TransformCall.Ends (call : TransformCall) (cf : ClassFile) : Prop := ∀ tree, call.run cf ≠ .error .overrun tree

/-- No array is too short for the call. -/
def TransformCall.Fits (cf : ClassFile) : TransformCall → Prop
  | .insertGuardedCall (some name) (some descriptor) (some owner) (some callee) valueCallee argument =>
    ¬Overruns name descriptor owner callee valueCallee argument cf
  | _ => True

theorem TransformCall.ends_iff (call : TransformCall) (cf : ClassFile) : call.Ends cf ↔ call.Fits cf := by
  have only {x : Transform Unit} (hx : StaysWithin x) : (∀ tree, x cf ≠ .error .overrun tree) ↔ True :=
    iff_of_true (fun _ => hx.ne_overrun) trivial
  have refused : StaysWithin (throw .methodNotFound : Transform Unit) := within_throw TransformStatus.noConfusion
  cases call with
  | makeNative name descriptor copyName =>
    refine only (x := classTransformMakeNative name descriptor copyName) ?_
    unfold classTransformMakeNative
    split
    · exact within_makeNative _ _ _
    · exact refused
  | restore name descriptor copyName =>
    refine only (x := classTransformRestore name descriptor copyName) ?_
    unfold classTransformRestore
    split
    · exact within_restore _ _ _
    · exact refused
  | insertCall name descriptor atOffset hookName =>
    refine only (x := classTransformInsertCall name descriptor atOffset hookName) ?_
    unfold classTransformInsertCall
    split
    · exact within_insertCall _ _ _ _
    · exact refused
  | insertStaticCall name descriptor atOffset owner callee argument forwardArguments =>
    refine only (x := classTransformInsertStaticCall name descriptor atOffset owner callee argument forwardArguments) ?_
    unfold classTransformInsertStaticCall
    split
    · exact within_insertStaticCall _ _ _ _ _ _ _
    · exact refused
  | insertGuardedCall name descriptor owner callee valueCallee argument =>
    cases name with
    | none => exact only refused
    | some name =>
      cases descriptor with
      | none => exact only refused
      | some descriptor =>
        cases owner with
        | none => exact only refused
        | some owner =>
          cases callee with
          | none => exact only refused
          | some callee =>
            refine Iff.trans ?_ (not_congr insertGuardedCall_overrun_iff)
            rw [not_exists]
            rfl

/-- The second tree can be written and reads back as itself, and the constants of the first are where they were. -/
structure RoundTrips (cf cf' : ClassFile) : Prop where
  written : ∃ bytes, classfileSerialize cf' = .ok bytes ∧ classfileParse bytes = .ok cf'
  kept : ∀ (i : Nat) (entry : CpInfo), cf.constantPool.entries[i]? = some entry →
    cf'.constantPool.entries[i]? = some entry

theorem roundTrips_of_extends {cf cf' : ClassFile} (h : Extends cf.constantPool.entries cf') : RoundTrips cf cf' := by
  obtain ⟨bytes, hbytes⟩ := classfileSerialize_ok h.wellFormed
  refine ⟨⟨bytes, hbytes, classfileParse_serialize h.wellFormed hbytes⟩, fun i entry hentry => ?_⟩
  obtain ⟨added, hadded⟩ := h.kept
  have hlength : i < cf.constantPool.entries.length := (List.getElem?_eq_some_iff.mp hentry).1
  rw [← hadded, List.getElem?_append_left hlength]
  exact hentry

/-- **Edited trees can be written and read back.** In a sequence of transform calls on a parsed file every call ends
with a status and what the sequence leaves behind can be written and reads back as itself, with every constant of the
file where it was, exactly when no call of the sequence is one that runs past an array. -/
theorem edited_tree_round_trip_iff {data : Bytes} {cf : ClassFile} (hparse : classfileParse data = .ok cf)
    (calls : List TransformCall) :
    (AllMeet transformStep (fun tree call => call.Ends tree) cf calls ∧
      RoundTrips cf (runEvents transformStep cf calls)) ↔ AllMeet transformStep TransformCall.Fits cf calls := by
  have hsame : (fun tree (call : TransformCall) => call.Ends tree) = TransformCall.Fits :=
    funext fun tree => funext fun call => propext (call.ends_iff tree)
  rw [hsame]
  exact and_iff_left (roundTrips_of_extends (extends_run (classfileParse_sound hparse).2 calls))

/-- A call in front of the body of `f()V`, a copy of it, and a guarded call that fails on the native method. -/
def plainCalls : List TransformCall :=
  [.insertCall (some (text "f")) (some (text "()V")) 0 (some (text "hook")),
    .makeNative (some (text "f")) (some (text "()V")) (some (text "g")),
    .insertGuardedCall (some (text "f")) (some (text "()V")) (some (text "a/B")) (some (text "c")) none 5]

theorem edited_tree_round_trip_plainCalls :
    ∃ cf, classfileParse plainClassBytes = .ok cf ∧ (runEvents transformStep cf plainCalls).methods.length = 3 ∧
      RoundTrips cf (runEvents transformStep cf plainCalls) := by
  have hparses : (classfileParse plainClassBytes).toOption.any
      (fun cf => (runEvents transformStep cf plainCalls).methods.length == 3) = true := by decide +kernel
  cases hcf : classfileParse plainClassBytes with
  | error e =>
    rw [hcf] at hparses
    cases hparses
  | ok cf =>
    rw [hcf] at hparses
    have hfits : AllMeet transformStep TransformCall.Fits cf plainCalls := by
      refine ⟨trivial, trivial, ?_, trivial⟩
      rintro ⟨-, answer, -, -, -, hnone, -⟩
      cases hnone
    exact ⟨cf, rfl, by simpa [Except.toOption] using hparses, ((edited_tree_round_trip_iff hcf plainCalls).mpr hfits).2⟩

/-- A call ran past an array. -/
def overran {α σ : Type} : EStateM.Result TransformStatus σ α → Bool
  | .error .overrun _ => true
  | _ => false

theorem error_of_overran {α σ : Type} {r : EStateM.Result TransformStatus σ α} (h : overran r = true) :
    ∃ s, r = .error .overrun s := by
  unfold overran at h
  split at h
  · exact ⟨_, rfl⟩
  · cases h

/-- 64 `int`s, and a `String` for a result. -/
def manyDescriptor : Bytes := 0x28 :: (List.replicate 64 0x49 ++ text ")Ljava/lang/String;")

/-- A static method of that type; it returns `null`. -/
def manyClass : ClassFile :=
  { guardedClass manyDescriptor [] [] with
    methods := [⟨0x9, 5, 6, [attributeInfoOf 7 [0, 1, 0, 64, 0, 0, 0, 2, Opc.aconst_null, Opc.areturn, 0, 0, 0, 0]]⟩] }

/-- The guard `G.g` before the body of `m`, with `G.v` for the value. -/
def manyCall : TransformCall :=
  .insertGuardedCall (some (text "m")) (some manyDescriptor) (some (text "G")) (some (text "g")) (some (text "v")) 7

/-- The 71st node of the call has no place in the array. -/
theorem many_arguments_overrun : ∃ data, classfileParse data = .ok manyClass ∧
    ¬(AllMeet transformStep (fun tree call => call.Ends tree) manyClass [manyCall] ∧
      RoundTrips manyClass (runEvents transformStep manyClass [manyCall])) := by
  have hserialized : (classfileSerialize manyClass).toOption.any
      (fun data => (classfileParse data).toOption.any (· = manyClass)) = true := by decide +kernel
  obtain ⟨tree, hrun⟩ := error_of_overran (r := manyCall.run manyClass) (by decide +kernel)
  obtain ⟨data, -, hread⟩ := (Option.any_eq_true _ _).mp hserialized
  obtain ⟨cf, hparse, heq⟩ := (Option.any_eq_true _ _).mp hread
  refine ⟨data, ?_, fun h => h.1.1 tree hrun⟩
  rw [← of_decide_eq_true heq]
  exact ok_of_toOption hparse

end Jni2Hook
