import Jni2Hook.Transform.GuardedCall

/-!
# The guard runs once

A guarded method starts with a prologue: the call of the guard, a branch to the old body, and the value that is returned
in its place.

* `RunsGuardOnce`: the prologue is entered only where the method is, a false answer leads to the first old instruction
  and from there along the old edges, and a true answer to the return.
* `guardsEntry_iff`: in the graph this is so exactly when no old edge leads to the first old instruction, since a
  reference to it is left on the prologue.
* `GuardRun.skipPath_iff`: the value is that of the return type exactly when the text behind the first closing
  parenthesis says so, since a class name may hold one.
* `guard_runs_once_iff`: both together, for every call that succeeds.
-/

namespace Jni2Hook

open Lib

/-! ## What is asked for -/

/-- The constant names a method. -/
def NamesMethod (pool : ConstantPool) (index : UInt16) (owner name descriptor : Bytes) : Prop :=
  ∃ classIndex natIndex, constantPoolAt pool index = some (.methodref classIndex natIndex) ∧
    classNameAt pool classIndex = some owner ∧ nameAndTypeAt pool natIndex = some (name, descriptor)

/-- The instruction that returns a value of the type. -/
def ValueType.return_ : ValueType → UInt8
  | .int => Opc.ireturn
  | .float => Opc.freturn
  | .long => Opc.lreturn
  | .double => Opc.dreturn
  | .reference => Opc.areturn

/-- The instruction that pushes the default value of the type. -/
def ValueType.zero : ValueType → UInt8
  | .int => Opc.iconst_0
  | .float => Opc.fconst_0
  | .long => Opc.lconst_0
  | .double => Opc.dconst_0
  | .reference => Opc.aconst_null

def resultReturn : Option FieldType → UInt8
  | none => Opc.return_
  | some type => type.valueType.return_

/-- The name under which a class constant names a class or an array type. -/
def FieldType.className : FieldType → Bytes
  | .object name => name.1
  | type => type.text

/-- An instruction of the graph without targets. -/
def straight (opcode : UInt8) (operand : Operand) : BodyInstruction (Option Nat) := ⟨opcode, false, operand, []⟩

/-- What a method does in place of its body: it pushes nothing, the default value or what `value_callee` answers, cast
to the type of the result, and returns. -/
def SkipPath (pool : ConstantPool) (owner : Bytes) (argument : Int) (result : Option FieldType)
    (valueCallee : Option Bytes)
    (path : List (BodyInstruction (Option Nat))) : Prop :=
  match result, valueCallee with
  | none, _ => path = [straight Opc.return_ .none]
  | some type, none => path = [straight type.valueType.zero .none, straight type.valueType.return_ .none]
  | some (.base base), some callee => ∃ call, NamesMethod pool call owner callee (text "(I)" ++ [base.letter]) ∧
      path = [straight Opc.sipush (.immediate argument), straight Opc.invokestatic (.cpIndex call),
        straight (FieldType.base base).valueType.return_ .none]
  | some type, some callee => ∃ call cast, NamesMethod pool call owner callee (text "(I)Ljava/lang/Object;") ∧
      classNameAt pool cast = some type.className ∧
      path = [straight Opc.sipush (.immediate argument), straight Opc.invokestatic (.cpIndex call),
        straight Opc.checkcast (.cpIndex cast), straight Opc.areturn .none]

/-- The call of the guard: its number, the arguments of the method, and a callee that answers yes or no. -/
def GuardCall (pool : ConstantPool) (owner callee : Bytes) (argument : Int) (arguments : Nat)
    (path : List (BodyInstruction (Option Nat))) : Prop :=
  ∃ loads call parameters, path = straight Opc.sipush (.immediate argument) ::
      (loads ++ [straight Opc.invokestatic (.cpIndex call)]) ∧ loads.length = arguments ∧
    (∀ load ∈ loads, ∃ opcode ∈ loadOpcodes, ∃ slot, load = straight opcode (.local_ slot)) ∧
    NamesMethod pool call owner callee (0x28 :: (parameters ++ [0x29, 0x5A]))

def Body.normalSuccessors (b : Body (Option Nat)) (i : Nat) : List (EdgeKind × Nat) :=
  (b.successors i).filter (·.1.isNormal)

/-- The old graph behind a prologue that is entered once: `guard`, the branch and `skip`. -/
structure GuardsEntry (old new : Body (Option Nat)) (guard skip : List (BodyInstruction (Option Nat))) : Prop where
  prologue : new.instructions.take (guard.length + 1 + skip.length) =
    guard ++ ⟨Opc.ifeq, false, .branch 0, [some (guard.length + 1 + skip.length)]⟩ :: skip
  kept : (new.instructions.drop (guard.length + 1 + skip.length)).map (fun i => (i.opcode, i.wide, i.operand)) =
    old.instructions.map fun i => (i.opcode, i.wide, i.operand)
  entered : ∀ i kind j, (kind, j) ∈ new.successors i → j < guard.length + 1 + skip.length →
    kind = .fallThrough ∧ i + 1 = j
  body : ∀ i, new.successors (i + (guard.length + 1 + skip.length)) =
    (old.successors i).map (Prod.map id (· + (guard.length + 1 + skip.length)))
  calls : ∀ i < guard.length, new.normalSuccessors i = [(.fallThrough, i + 1)]
  branches : new.normalSuccessors guard.length =
    [(.fallThrough, guard.length + 1), (.branch, guard.length + 1 + skip.length)]
  skips : ∀ i, guard.length < i → i + 1 < guard.length + 1 + skip.length →
    new.normalSuccessors i = [(.fallThrough, i + 1)]
  returns : new.normalSuccessors (guard.length + skip.length) = []

/-- The guard is called once for each call of the method, and its answer decides between the old body and the return. -/
def RunsGuardOnce (pool : ConstantPool) (d : MethodDescriptor) (isStatic : Bool) (owner callee : Bytes)
    (valueCallee : Option Bytes) (argument : Int) (old new : Body (Option Nat)) : Prop :=
  ∃ guard skip, GuardCall pool owner callee argument (d.argumentCount isStatic) guard ∧
    SkipPath pool owner argument d.result valueCallee skip ∧ GuardsEntry old new guard skip

/-! ## The graph -/

theorem filter_handlers (b : Body (Option Nat)) (i : Nat) (f : Nat → Nat) :
    ((b.handlers i).map (Prod.map id f)).filter (·.1.isNormal) = [] := by
  refine List.filter_eq_nil_iff.mpr fun x hx => ?_
  obtain ⟨y, hy, rfl⟩ := List.mem_map.mp hx
  simp [handlers_not_normal b i y hy]

/-- An instruction that goes on to the next one. -/
def GoesOn (node : BodyInstruction (Option Nat)) : Prop := fallsThrough node.opcode = true ∧ node.targets = []

/-- An instruction that ends the method. -/
def Ends (node : BodyInstruction (Option Nat)) : Prop :=
  fallsThrough node.opcode = false ∧ outsideSubroutines node.opcode = true ∧ node.targets = []

theorem jumps_of_targets_nil {node : BodyInstruction (Option Nat)} (h : node.targets = []) : node.jumps = [] := by
  simp [BodyInstruction.jumps, h]

/-- The branch of the prologue. -/
def entryBranch (count : Nat) : BodyInstruction (Option Nat) := ⟨Opc.ifeq, false, .branch 0, [some count]⟩

/-- The prologue: the guard, the branch to what stands behind, and the path around the body. -/
def entryNodes (guard skip : List (BodyInstruction (Option Nat))) : List (BodyInstruction (Option Nat)) :=
  guard ++ entryBranch (guard.length + 1 + skip.length) :: skip

/-- The guard goes on to the branch, and the path around the body ends with its last instruction. -/
structure EntryShape (guard skip : List (BodyInstruction (Option Nat))) : Prop where
  guard : ∀ node ∈ guard, GoesOn node
  skip : ∃ value ret, skip = value ++ [ret] ∧ (∀ node ∈ value, GoesOn node) ∧ Ends ret

theorem length_entryNodes (guard skip : List (BodyInstruction (Option Nat))) :
    (entryNodes guard skip).length = guard.length + 1 + skip.length := by
  rw [entryNodes, List.length_append, List.length_cons]
  omega

/-- The edges that do not lead to the first instruction move with the body. -/
theorem map_shiftPosition_iff {count : Nat} (hcount : 0 < count) (l : List (EdgeKind × Nat)) :
    l.map (Prod.map id (shiftPosition 0 count)) = l.map (Prod.map id (· + count)) ↔ ∀ kind, (kind, 0) ∉ l := by
  rw [List.map_inj_left]
  constructor
  · intro h kind hmem
    have hsame := congrArg Prod.snd (h (kind, 0) hmem)
    simp only [Prod.map_apply, shiftPosition, Nat.le_refl, if_true] at hsame
    omega
  · rintro h ⟨kind, j⟩ hmem
    have hj : j ≠ 0 := by
      rintro rfl
      exact h kind hmem
    rw [Prod.map_apply, Prod.map_apply, shiftPosition, if_neg (by omega)]

section Graph

variable {old : Body (Option Nat)} {guard skip : List (BodyInstruction (Option Nat))}

theorem instructions_entry : (old.spliceShifted 0 (entryNodes guard skip)).instructions = entryNodes guard skip ++
    old.instructions.map (·.map (Option.map (shiftPosition 0 (guard.length + 1 + skip.length)))) := by
  rw [← length_entryNodes]
  rfl

variable (h : EntryShape guard skip)

include h

/-- No subroutine is called in the prologue, and none returns. -/
theorem EntryShape.outside : ∀ node ∈ entryNodes guard skip, outsideSubroutines node.opcode = true := by
  obtain ⟨value, ret, rfl, hvalue, hret⟩ := h.skip
  intro node hn
  rcases List.mem_append.mp hn with hguard | hn
  · exact outside_of_fallsThrough (h.guard node hguard).1
  · rcases List.mem_cons.mp hn with rfl | hn
    · rfl
    · rcases List.mem_append.mp hn with hmem | hmem
      · exact outside_of_fallsThrough (hvalue node hmem).1
      · rw [List.mem_singleton.mp hmem]
        exact hret.2.1

/-- The edges of a node of the prologue. -/
theorem EntryShape.successors {k : Nat} {node : BodyInstruction (Option Nat)}
    (hnode : (entryNodes guard skip)[k]? = some node) :
    (old.spliceShifted 0 (entryNodes guard skip)).successors k =
      (if fallsThrough node.opcode then [(.fallThrough, k + 1)] else []) ++ node.jumps ++ (old.handlers 0).map
        (Prod.map id (shiftPosition 0 (guard.length + 1 + skip.length))) := by
  rw [← length_entryNodes]
  exact successors_spliced_new _ h.outside (Nat.zero_le _) (Nat.zero_le _) hnode

/-- The edges of an old instruction. -/
theorem EntryShape.successors_behind (i : Nat) :
    (old.spliceShifted 0 (entryNodes guard skip)).successors (i + (guard.length + 1 + skip.length)) =
      (old.successors i).map (Prod.map id (shiftPosition 0 (guard.length + 1 + skip.length))) := by
  rw [← length_entryNodes, ← successors_spliced_moved _ h.outside (Nat.zero_le _), shiftInstruction,
    if_neg (Nat.not_lt_zero i)]

theorem EntryShape.normalSuccessors {k : Nat} {node : BodyInstruction (Option Nat)}
    (hnode : (entryNodes guard skip)[k]? = some node) :
    (old.spliceShifted 0 (entryNodes guard skip)).normalSuccessors k =
      ((if fallsThrough node.opcode then [(EdgeKind.fallThrough, k + 1)] else []) ++ node.jumps).filter
        (·.1.isNormal) := by
  rw [Body.normalSuccessors, h.successors hnode, List.filter_append, filter_handlers, List.append_nil]

/-- The nodes of the prologue, one by one. -/
theorem EntryShape.cases {k : Nat} (hk : k < guard.length + 1 + skip.length) :
    ∃ node, (entryNodes guard skip)[k]? = some node ∧
      ((GoesOn node ∧ k ≠ guard.length ∧ k < guard.length + skip.length) ∨
        (node = entryBranch (guard.length + 1 + skip.length) ∧ k = guard.length) ∨
        (Ends node ∧ k = guard.length + skip.length)) := by
  obtain ⟨value, ret, hskip, hvalue, hret⟩ := h.skip
  have hlen : skip.length = value.length + 1 := by rw [hskip, List.length_append, List.length_singleton]
  rcases Nat.lt_trichotomy k guard.length with hlt | rfl | hgt
  · refine ⟨guard[k], ?_, .inl ⟨h.guard _ (List.getElem_mem hlt), by omega, by omega⟩⟩
    rw [entryNodes, List.getElem?_append_left hlt, List.getElem?_eq_getElem hlt]
  · exact ⟨entryBranch (guard.length + 1 + skip.length), by simp [entryNodes], .inr (.inl ⟨rfl, rfl⟩)⟩
  · obtain ⟨m, rfl⟩ : ∃ m, k = guard.length + 1 + m := ⟨k - (guard.length + 1), by omega⟩
    have hget : (entryNodes guard skip)[guard.length + 1 + m]? = (value ++ [ret])[m]? := by
      rw [entryNodes, List.getElem?_append_right (by omega), show guard.length + 1 + m - guard.length = m + 1 by omega,
        List.getElem?_cons_succ, hskip]
    rcases Nat.lt_or_ge m value.length with hm | hm
    · refine ⟨value[m], ?_, .inl ⟨hvalue _ (List.getElem_mem hm), by omega, by omega⟩⟩
      rw [hget, List.getElem?_append_left hm, List.getElem?_eq_getElem hm]
    · obtain rfl : m = value.length := by omega
      refine ⟨ret, ?_, .inr (.inr ⟨hret, by omega⟩)⟩
      rw [hget, List.getElem?_concat_length]

/-- Every edge into the prologue comes from the node before it. -/
theorem EntryShape.entered (hold : old.instructions ≠ []) (hnone : ∀ i kind, (kind, 0) ∉ old.successors i) {i j : Nat}
    {kind : EdgeKind} (hedge : (kind, j) ∈ (old.spliceShifted 0 (entryNodes guard skip)).successors i)
    (hj : j < guard.length + 1 + skip.length) : kind = .fallThrough ∧ i + 1 = j := by
  -- an old edge that has moved leads behind the prologue
  have behind {l : List (EdgeKind × Nat)} (hl : ∀ kind, (kind, 0) ∉ l)
      (hmem : (kind, j) ∈ l.map (Prod.map id (shiftPosition 0 (guard.length + 1 + skip.length)))) : False := by
    obtain ⟨⟨kind', t⟩, ht, heq⟩ := List.mem_map.mp hmem
    have ht0 : t ≠ 0 := by
      rintro rfl
      exact hl kind' ht
    have := congrArg Prod.snd heq
    simp only [Prod.map_apply, shiftPosition] at this
    rw [if_neg (by omega)] at this
    omega
  rcases Nat.lt_or_ge i (guard.length + 1 + skip.length) with hi | hi
  · obtain ⟨node, hnode, hcases⟩ := h.cases hi
    rw [h.successors hnode] at hedge
    rcases List.mem_append.mp hedge with hown | hhandler
    · rcases hcases with ⟨hg, -⟩ | ⟨rfl, -⟩ | ⟨he, -⟩
      · rw [hg.1, jumps_of_targets_nil hg.2, if_pos rfl, List.append_nil, List.mem_singleton] at hown
        cases hown
        exact ⟨rfl, rfl⟩
      · have hown : (kind, j) ∈ [(EdgeKind.fallThrough, i + 1), (.branch, guard.length + 1 + skip.length)] := hown
        simp only [List.mem_cons, Prod.mk.injEq, List.not_mem_nil, or_false] at hown
        rcases hown with ⟨rfl, rfl⟩ | ⟨-, rfl⟩
        · exact ⟨rfl, rfl⟩
        · omega
      · rw [he.1, jumps_of_targets_nil he.2.2] at hown
        cases hown
    · refine (behind (fun kind' hmem => hnone 0 kind' ?_) hhandler).elim
      unfold Body.successors
      rw [List.getElem?_eq_getElem (List.length_pos_iff.mpr hold)]
      exact List.mem_append_right _ hmem
  · obtain ⟨m, rfl⟩ : ∃ m, i = m + (guard.length + 1 + skip.length) := ⟨i - (guard.length + 1 + skip.length), by omega⟩
    rw [h.successors_behind] at hedge
    exact (behind (hnone m) hedge).elim

theorem EntryShape.goesOn {k : Nat} (hk : k < guard.length + skip.length) (hne : k ≠ guard.length) :
    (old.spliceShifted 0 (entryNodes guard skip)).normalSuccessors k = [(.fallThrough, k + 1)] := by
  obtain ⟨node, hnode, ⟨hg, -⟩ | ⟨-, hno⟩ | ⟨-, hno⟩⟩ := h.cases (k := k) (by omega)
  · rw [h.normalSuccessors hnode, hg.1, jumps_of_targets_nil hg.2]
    rfl
  · exact absurd hno hne
  · omega

theorem EntryShape.branches : (old.spliceShifted 0 (entryNodes guard skip)).normalSuccessors guard.length =
    [(.fallThrough, guard.length + 1), (.branch, guard.length + 1 + skip.length)] := by
  obtain ⟨node, hnode, ⟨-, hno, -⟩ | ⟨rfl, -⟩ | ⟨-, hno⟩⟩ := h.cases (k := guard.length) (by omega)
  · exact absurd rfl hno
  · rw [h.normalSuccessors hnode]
    rfl
  · obtain ⟨value, ret, hskip, -⟩ := h.skip
    rw [hskip, List.length_append, List.length_singleton] at hno
    omega

theorem EntryShape.ends :
    (old.spliceShifted 0 (entryNodes guard skip)).normalSuccessors (guard.length + skip.length) = [] := by
  obtain ⟨value, ret, hskip, -⟩ := h.skip
  have hlen : skip.length = value.length + 1 := by rw [hskip, List.length_append, List.length_singleton]
  obtain ⟨node, hnode, ⟨-, -, hno⟩ | ⟨-, hno⟩ | ⟨he, -⟩⟩ := h.cases (k := guard.length + skip.length) (by omega)
  · exact absurd hno (Nat.lt_irrefl _)
  · omega
  · rw [h.normalSuccessors hnode, he.1, jumps_of_targets_nil he.2.2]
    rfl

/-- **The prologue is entered once** exactly when no old edge leads to the first old instruction. -/
theorem guardsEntry_iff (hold : old.instructions ≠ []) {maxStack : UInt16} :
    GuardsEntry old { (old.spliceShifted 0 (entryNodes guard skip)) with maxStack := maxStack } guard skip ↔
      ∀ i kind, (kind, 0) ∉ old.successors i := by
  constructor
  · intro hentry i
    exact (map_shiftPosition_iff (by omega) _).mp ((h.successors_behind i).symm.trans (hentry.body i))
  · intro hnone
    refine ⟨?_, ?_, ?_, ?_, ?_, h.branches, ?_, h.ends⟩
    · show (Body.instructions _).take _ = entryNodes guard skip
      rw [instructions_entry, List.take_left' (length_entryNodes guard skip)]
    · show ((Body.instructions _).drop _).map _ = _
      rw [instructions_entry, List.drop_left' (length_entryNodes guard skip), List.map_map]
      rfl
    · intro i kind j hedge hj
      exact h.entered hold hnone hedge hj
    · intro i
      exact (h.successors_behind i).trans ((map_shiftPosition_iff (by omega) _).mpr (hnone i))
    · intro i hi
      exact h.goesOn (by omega) (by omega)
    · intro i hlt hle
      exact h.goesOn (by omega) (by omega)

end Graph

/-! ## The constants of the prologue -/

theorem NamesMethod.grows {pool pool' : ConstantPool} (h : Grows pool pool') {index : UInt16}
    {owner name descriptor : Bytes} (hnames : NamesMethod pool index owner name descriptor) :
    NamesMethod pool' index owner name descriptor := by
  obtain ⟨classIndex, natIndex, hat, howner, hnat⟩ := hnames
  exact ⟨classIndex, natIndex, h.at_ hat, h.className howner, h.nameAndType hnat⟩

theorem NamesMethod.descriptor_unique {pool : ConstantPool} {index : UInt16}
    {owner name descriptor owner' name' descriptor' : Bytes} (h : NamesMethod pool index owner name descriptor)
    (h' : NamesMethod pool index owner' name' descriptor') : descriptor = descriptor' := by
  obtain ⟨classIndex, natIndex, hat, -, hnat⟩ := h
  obtain ⟨classIndex', natIndex', hat', -, hnat'⟩ := h'
  rw [hat] at hat'
  cases hat'
  rw [hnat] at hnat'
  cases hnat'
  rfl

theorem namesMethod_of_intern {ownerIndex index : UInt16} {owner callee descriptor : Bytes} {cf cf' : ClassFile}
    (hcount : cf.constantPool.count ≤ classfileMaxCount) (howner : classNameAt cf.constantPool ownerIndex = some owner)
    (h : classFileInternMethodref ownerIndex callee descriptor cf = .ok index cf') :
    NamesMethod cf'.constantPool index owner callee descriptor := by
  obtain ⟨hinterns, nameIndex, descriptorIndex, natIndex, hname, hdescriptor, hnat, hmethod⟩ := internMethodref_steps h
  have hcount' := hinterns.count hcount
  exact ⟨ownerIndex, natIndex, constantPoolAt_of_find hcount' (by simp) hmethod, hinterns.grows.className howner,
    nameAndTypeAt_eq_some.mpr ⟨nameIndex, descriptorIndex, constantPoolAt_of_find hcount' (by simp) hnat,
      utf8_of_find hcount' hname, utf8_of_find hcount' hdescriptor⟩⟩

/-! ## The return type -/

theorem returnOpcodeFor_result (result : Option FieldType) :
    returnOpcodeFor ((resultText result).headD 0) = resultReturn result := by
  cases result with
  | none => rfl
  | some type =>
    cases type with
    | base base => cases base <;> rfl
    | object name => rfl
    | array component => rfl

theorem defaultOpcodeFor_type (type : FieldType) : defaultOpcodeFor (type.text.headD 0) = type.valueType.zero := by
  cases type with
  | base base => cases base <;> rfl
  | object name => rfl
  | array component => rfl

theorem return_ne_void (value : ValueType) : value.return_ ≠ Opc.return_ := by
  cases value <;> decide

/-- The letter of `void` is the only one with its return. -/
theorem returnOpcodeFor_void {letter : UInt8} : returnOpcodeFor letter = Opc.return_ ↔ letter = 0x56 := by
  constructor
  · intro h
    unfold returnOpcodeFor at h
    split at h <;> first | rfl | exact absurd h (by decide)
  · rintro rfl
    rfl

theorem returnOpcodeFor_reference {letter : UInt8} :
    returnOpcodeFor letter = Opc.areturn ↔ letter = 0x4C ∨ letter = 0x5B := by
  constructor
  · intro h
    unfold returnOpcodeFor at h
    split at h <;> first | exact .inl rfl | exact .inr rfl | exact absurd h (by decide)
  · rintro (rfl | rfl) <;> rfl

/-- The default value goes with the return. -/
theorem default_of_return {letter letter' : UInt8} (h : returnOpcodeFor letter = returnOpcodeFor letter')
    (hvoid : letter ≠ 0x56) (hvoid' : letter' ≠ 0x56) : defaultOpcodeFor letter = defaultOpcodeFor letter' := by
  have table : ∀ k < 256, UInt8.ofNat k ≠ 0x56 → defaultOpcodeFor (UInt8.ofNat k) =
      if returnOpcodeFor (UInt8.ofNat k) = Opc.lreturn then Opc.lconst_0
      else if returnOpcodeFor (UInt8.ofNat k) = Opc.freturn then Opc.fconst_0
      else if returnOpcodeFor (UInt8.ofNat k) = Opc.dreturn then Opc.dconst_0
      else if returnOpcodeFor (UInt8.ofNat k) = Opc.areturn then Opc.aconst_null else Opc.iconst_0 := by
    decide +kernel
  have := table letter.toNat letter.toNat_lt
  have := table letter'.toNat letter'.toNat_lt
  simp_all

theorem isReference_type (type : FieldType) : isReference type.text = (type.valueType = .reference) := by
  cases type with
  | base base => cases base <;> simp [FieldType.text, BaseType.letter, isReference, FieldType.valueType]
  | object name => simp [FieldType.text, isReference, FieldType.valueType]
  | array component => simp [FieldType.text, isReference, FieldType.valueType]

/-- The cast of a class or an array type names the type. -/
theorem castName_type {type : FieldType} (h : type.valueType = .reference) : castName type.text = type.className := by
  cases type with
  | base base => exact absurd h (base_valueType_ne base)
  | object name =>
    have hhead : (FieldType.object name).text.headD 0 = 0x4C := rfl
    rw [castName, if_pos hhead, FieldType.className, FieldType.text]
    simp
  | array component =>
    have hhead : (FieldType.array component).text.headD 0 ≠ 0x4C := by simp [FieldType.text]
    rw [castName, if_neg hhead]
    rfl

/-- What is scanned for the return type ends with it, behind the last closing parenthesis. -/
theorem scannedReturn_text (d : MethodDescriptor) : scannedReturn d.text = resultText d.result ∨
    ∃ before, scannedReturn d.text = before ++ 0x29 :: resultText d.result := by
  rw [scannedReturn, MethodDescriptor.text, List.dropWhile_cons_of_pos (by decide)]
  by_cases hmem : (0x29 : UInt8) ∈ d.parameters.flatMap FieldType.text
  · right
    obtain ⟨before, after, hsplit, hnot⟩ := List.eq_append_cons_of_mem hmem
    refine ⟨after, ?_⟩
    have hpos : ∀ c ∈ before, (c != 0x29) = true := by
      intro c hc
      have : c ≠ 0x29 := fun heq => hnot (heq ▸ hc)
      simpa using this
    rw [hsplit, List.append_assoc, List.dropWhile_append_of_pos hpos, List.cons_append,
      List.dropWhile_cons_of_neg (by decide)]
    simp
  · left
    have hpos : ∀ c ∈ d.parameters.flatMap FieldType.text, (c != 0x29) = true := by
      intro c hc
      have : c ≠ 0x29 := fun heq => hmem (heq ▸ hc)
      simpa using this
    rw [List.dropWhile_append_of_pos hpos, List.dropWhile_cons_of_neg (by decide)]
    simp

/-- A cast that names the result type was scanned off its text. -/
theorem scanned_of_castName {d : MethodDescriptor} {type : FieldType} (hresult : d.result = some type)
    (hreference : type.valueType = .reference) (hscanned : isReference (scannedReturn d.text) = true)
    (hcast : castName (scannedReturn d.text) = type.className) : scannedReturn d.text = type.text := by
  have htext := scannedReturn_text d
  rw [hresult] at htext
  rcases htext with htext | ⟨before, htext⟩
  · exact htext
  · exfalso
    rw [htext] at hcast hscanned
    change castName (before ++ 0x29 :: type.text) = type.className at hcast
    change isReference (before ++ 0x29 :: type.text) = true at hscanned
    cases before with
    | nil => simp [isReference] at hscanned
    | cons first before =>
      rw [castName] at hcast
      cases type with
      | base base => exact base_valueType_ne base hreference
      | object name =>
        have hlen := congrArg List.length hcast
        split at hlen
        · simp [FieldType.className, FieldType.text] at hlen
          omega
        · simp [FieldType.className, FieldType.text] at hlen
          omega
      | array component =>
        split at hcast
        · -- the cast would start with the parenthesis, or be too long
          cases before with
          | nil => simp [FieldType.className, FieldType.text] at hcast
          | cons second before =>
            have hlen := congrArg List.length hcast
            simp [FieldType.className, FieldType.text] at hlen
            omega
        · have hlen := congrArg List.length hcast
          simp [FieldType.className, FieldType.text] at hlen
          omega

/-! ## The path around the body -/

/-- The text behind the first closing parenthesis stands for the return type: it has its return and, where the value is
asked for, its letter; of a class or an array it is the whole type. -/
def ReadsResult (d : MethodDescriptor) : Option Bytes → Prop
  | none => returnOpcodeFor ((scannedReturn d.text).headD 0) = returnOpcodeFor ((resultText d.result).headD 0)
  | some _ => (scannedReturn d.text).headD 0 = (resultText d.result).headD 0 ∧
      (isReference (resultText d.result) = true → scannedReturn d.text = resultText d.result)

theorem head_void_iff (result : Option FieldType) : (resultText result).headD 0 = 0x56 ↔ result = none := by
  rw [← returnOpcodeFor_void, returnOpcodeFor_result]
  cases result with
  | none => exact ⟨fun _ => rfl, fun _ => rfl⟩
  | some type => exact ⟨fun h => absurd h (return_ne_void _), fun h => by cases h⟩

section SkipPath

variable {pool : ConstantPool} {owner : Bytes} {argument : Int} {d : MethodDescriptor} {valueCallee : Option Bytes}

theorem skipPath_void_iff (hvoid : (scannedReturn d.text).headD 0 = 0x56) :
    SkipPath pool owner argument d.result valueCallee
      [straight (returnOpcodeFor ((scannedReturn d.text).headD 0)) .none] ↔ ReadsResult d valueCallee := by
  have hpath : SkipPath pool owner argument d.result valueCallee
      [straight (returnOpcodeFor ((scannedReturn d.text).headD 0)) .none] ↔ d.result = none := by
    rw [hvoid]
    cases d.result with
    | none => exact ⟨fun _ => rfl, fun _ => rfl⟩
    | some type =>
      refine ⟨fun h => ?_, fun h => by cases h⟩
      exfalso
      cases valueCallee with
      | none => simp [SkipPath] at h
      | some callee => cases type <;> simp [SkipPath] at h
  rw [hpath]
  cases valueCallee with
  | none =>
    rw [ReadsResult, hvoid, ← head_void_iff, ← returnOpcodeFor_void]
    exact eq_comm
  | some callee =>
    rw [ReadsResult, hvoid, ← head_void_iff]
    refine ⟨fun h => ⟨h.symm, fun href => ?_⟩, fun h => h.1.symm⟩
    rw [isReference, h] at href
    exact absurd href (by decide)

theorem skipPath_constant_iff (hvalue : (scannedReturn d.text).headD 0 ≠ 0x56) :
    SkipPath pool owner argument d.result none [straight (defaultOpcodeFor ((scannedReturn d.text).headD 0)) .none,
      straight (returnOpcodeFor ((scannedReturn d.text).headD 0)) .none] ↔ ReadsResult d none := by
  rw [ReadsResult]
  cases hresult : d.result with
  | none =>
    refine ⟨fun h => by simp [SkipPath] at h, fun h => absurd (returnOpcodeFor_void.mp h) hvalue⟩
  | some type =>
    have hvoid' : (resultText (some type)).headD 0 ≠ 0x56 := fun h => by cases (head_void_iff _).mp h
    constructor
    · intro h
      simp only [SkipPath, List.cons.injEq, straight, BodyInstruction.mk.injEq] at h
      rw [returnOpcodeFor_result]
      exact h.2.1.1
    · intro h
      have hdefault := default_of_return h hvalue hvoid'
      rw [returnOpcodeFor_result] at h
      rw [h, hdefault]
      show _ = [straight type.valueType.zero .none, straight type.valueType.return_ .none]
      rw [← defaultOpcodeFor_type]
      rfl

theorem skipPath_primitive_iff {callee : Bytes} {call : UInt16} (hvalue : (scannedReturn d.text).headD 0 ≠ 0x56)
    (hprimitive : isReference (scannedReturn d.text) = false)
    (hcall : NamesMethod pool call owner callee (text "(I)" ++ [(scannedReturn d.text).headD 0])) :
    SkipPath pool owner argument d.result (some callee) [straight Opc.sipush (.immediate argument),
      straight Opc.invokestatic (.cpIndex call), straight (returnOpcodeFor ((scannedReturn d.text).headD 0)) .none] ↔
      ReadsResult d (some callee) := by
  rw [ReadsResult]
  cases hresult : d.result with
  | none =>
    refine ⟨fun h => by simp [SkipPath] at h, fun h => absurd h.1 hvalue⟩
  | some type =>
    cases type with
    | base base =>
      constructor
      · rintro ⟨call', hnames, hpath⟩
        simp only [List.cons.injEq, straight, BodyInstruction.mk.injEq, Operand.cpIndex.injEq, true_and,
          and_true] at hpath
        rw [← hpath.1] at hnames
        have hletter := hnames.descriptor_unique hcall
        simp only [List.append_cancel_left_eq, List.cons.injEq, and_true] at hletter
        refine ⟨hletter.symm, fun href => ?_⟩
        exact absurd ((isReference_type (.base base)).mp href) (base_valueType_ne base)
      · rintro ⟨hhead, -⟩
        refine ⟨call, ?_, ?_⟩
        · rw [hhead] at hcall
          exact hcall
        · rw [hhead, returnOpcodeFor_result]
          rfl
    | object name =>
      refine ⟨fun h => by simp [SkipPath] at h, fun h => ?_⟩
      rw [h.2 rfl] at hprimitive
      cases hprimitive
    | array component =>
      refine ⟨fun h => by simp [SkipPath] at h, fun h => ?_⟩
      rw [h.2 rfl] at hprimitive
      cases hprimitive

theorem skipPath_reference_iff {callee : Bytes} {call cast : UInt16}
    (hreference : isReference (scannedReturn d.text) = true)
    (hcall : NamesMethod pool call owner callee (text "(I)Ljava/lang/Object;"))
    (hcast : classNameAt pool cast = some (castName (scannedReturn d.text))) :
    SkipPath pool owner argument d.result (some callee) [straight Opc.sipush (.immediate argument),
      straight Opc.invokestatic (.cpIndex call), straight Opc.checkcast (.cpIndex cast),
      straight (returnOpcodeFor ((scannedReturn d.text).headD 0)) .none] ↔ ReadsResult d (some callee) := by
  have hareturn : returnOpcodeFor ((scannedReturn d.text).headD 0) = Opc.areturn :=
    returnOpcodeFor_reference.mpr (of_decide_eq_true hreference)
  have htype {type : FieldType} (hresult : d.result = some type) (hre : type.valueType = .reference) :
      (∃ call' cast', NamesMethod pool call' owner callee (text "(I)Ljava/lang/Object;") ∧
        classNameAt pool cast' = some type.className ∧ [straight Opc.sipush (.immediate argument),
          straight Opc.invokestatic (.cpIndex call), straight Opc.checkcast (.cpIndex cast),
            straight Opc.areturn .none] =
          [straight Opc.sipush (.immediate argument), straight Opc.invokestatic (.cpIndex call'),
            straight Opc.checkcast (.cpIndex cast'), straight Opc.areturn .none]) ↔
        ((scannedReturn d.text).headD 0 = type.text.headD 0 ∧
          (isReference type.text = true → scannedReturn d.text = type.text)) := by
    constructor
    · rintro ⟨call', cast', -, hname, hpath⟩
      simp only [List.cons.injEq, straight, BodyInstruction.mk.injEq, Operand.cpIndex.injEq, true_and,
        and_true] at hpath
      rw [← hpath.2, hcast] at hname
      have hscanned := scanned_of_castName hresult hre hreference (Option.some.inj hname)
      exact ⟨by rw [hscanned], fun _ => hscanned⟩
    · rintro ⟨-, hscanned⟩
      rw [hscanned ((isReference_type type).mpr hre), castName_type hre] at hcast
      exact ⟨call, cast, hcall, hcast, rfl⟩
  rw [ReadsResult, hareturn]
  cases hresult : d.result with
  | none =>
    refine ⟨fun h => by simp [SkipPath] at h, fun h => ?_⟩
    have hre : (scannedReturn d.text).headD 0 = 0x4C ∨ (scannedReturn d.text).headD 0 = 0x5B :=
      of_decide_eq_true hreference
    rw [h.1] at hre
    exact absurd hre (by decide)
  | some type =>
    cases type with
    | base base =>
      refine ⟨fun h => by simp [SkipPath] at h, fun h => ?_⟩
      have hre : isReference (FieldType.base base).text = true := by
        rw [← hreference, isReference, isReference, h.1]
        rfl
      exact absurd ((isReference_type (.base base)).mp hre) (base_valueType_ne base)
    | object name => exact htype hresult rfl
    | array component => exact htype hresult rfl

end SkipPath

/-! ## The prologue of a run -/

theorem falls_load : ∀ opcode ∈ loadOpcodes, fallsThrough opcode = true := List.all_eq_true.mp (by decide)

theorem falls_defaultOpcodeFor (letter : UInt8) : fallsThrough (defaultOpcodeFor letter) = true := by
  unfold defaultOpcodeFor
  split <;> decide

theorem ends_returnOpcodeFor (letter : UInt8) :
    fallsThrough (returnOpcodeFor letter) = false ∧ outsideSubroutines (returnOpcodeFor letter) = true := by
  unfold returnOpcodeFor
  split <;> decide

theorem goesOn_plain {node : Instruction} (h : fallsThrough node.opcode = true) : GoesOn node.plain := ⟨h, rfl⟩

theorem goesOn_forwardNodes {argument : Int} {parameters : List ForwardedParameter} {methodref : UInt16}
    (hall : ∀ p ∈ parameters, p.loadOpcode ∈ loadOpcodes) :
    ∀ node ∈ forwardNodes argument parameters methodref, fallsThrough node.opcode = true := by
  intro node hn
  simp only [forwardNodes, List.mem_cons, List.mem_append, List.mem_map, List.not_mem_nil, or_false] at hn
  rcases hn with rfl | ⟨p, hp, rfl⟩ | rfl
  · rfl
  · exact falls_load _ (hall p hp)
  · rfl

theorem GuardedValue.goesOn {returnType : Bytes} {ownerIndex : UInt16} {argument : Int} {cf cf' : ClassFile}
    {valueCallee : Option Bytes} {value : List Instruction}
    (h : GuardedValue returnType ownerIndex argument cf cf' valueCallee value) :
    ∀ node ∈ value, fallsThrough node.opcode = true := by
  intro node hn
  cases h with
  | void => exact absurd hn List.not_mem_nil
  | constant =>
    rw [List.mem_singleton.mp hn]
    exact falls_defaultOpcodeFor _
  | call _ hcall =>
    cases hcall with
    | primitive =>
      simp only [List.mem_cons, List.not_mem_nil, or_false] at hn
      rcases hn with rfl | rfl <;> rfl
    | reference =>
      simp only [List.mem_cons, List.not_mem_nil, or_false] at hn
      rcases hn with rfl | rfl | rfl <;> rfl

theorem valueLetters_primitive {returnType letters : Bytes} (hne : returnType ≠ [])
    (hprimitive : isReference returnType = false) (h : valueLetters returnType 3 = some letters) :
    letters = [returnType.headD 0] := by
  cases returnType with
  | nil => exact absurd rfl hne
  | cons c rest =>
    have hletter : c ≠ 0x5B ∧ c ≠ 0x4C := by
      have hneither : ¬(c = 0x4C ∨ c = 0x5B) := of_decide_eq_false hprimitive
      exact ⟨fun hc => hneither (.inr hc), fun hc => hneither (.inl hc)⟩
    rw [valueLetters, if_neg (by decide), if_pos hletter] at h
    cases h
    rfl

namespace GuardRun

variable {name owner callee : Bytes} {d : MethodDescriptor} {valueCallee : Option Bytes} {argument : Int}
  {cf cf' : ClassFile} (run : GuardRun name d.text owner callee valueCallee argument cf cf')

/-- The call of the guard in the graph. -/
def guardPath : List (BodyInstruction (Option Nat)) := run.guard.map (·.plain)

/-- The path around the body in the graph. -/
def skipPath : List (BodyInstruction (Option Nat)) :=
  (run.value ++ [newNode (returnOpcodeFor run.returns) .none]).map (·.plain)

theorem prologue_eq : prologue run.guard run.value run.returns = entryNodes run.guardPath run.skipPath := by
  have hlen : (guardNodes run.guard run.value run.returns).length = run.guardPath.length + 1 + run.skipPath.length := by
    simp only [guardNodes, guardPath, skipPath, List.length_append, List.length_cons, List.length_map]
    omega
  rw [prologue, hlen]
  rfl

theorem entryShape : EntryShape run.guardPath run.skipPath := by
  have hloads : ∀ p ∈ run.parameters, p.loadOpcode ∈ loadOpcodes := by
    rw [run.parameters_eq]
    exact fun p hp => (mem_described run.argumentCount_le p hp).1
  refine ⟨fun node hn => ?_, run.value.map (·.plain), straight (returnOpcodeFor run.returns) .none, ?_,
    fun node hn => ?_, (ends_returnOpcodeFor _).1, (ends_returnOpcodeFor _).2, rfl⟩
  · obtain ⟨x, hx, rfl⟩ := List.mem_map.mp hn
    exact goesOn_plain (goesOn_forwardNodes hloads x hx)
  · rw [skipPath, List.map_append]
    rfl
  · obtain ⟨x, hx, rfl⟩ := List.mem_map.mp hn
    exact goesOn_plain (run.guardedValue.goesOn x hx)

theorem length_guardPath : run.guardPath.length = d.argumentCount run.isStatic + 2 := by
  rw [← length_described, ← run.parameters_eq]
  simp [guardPath, guard, forwardNodes]

variable (hcount : cf.constantPool.count ≤ classfileMaxCount)

include hcount

theorem owner_named : classNameAt run.ownerTree.constantPool run.ownerIndex = some owner :=
  (internClass_ok run.internOwner).2 hcount

theorem guardCall : GuardCall run.tableTree.constantPool owner callee argument (d.argumentCount run.isStatic)
    run.guardPath := by
  have hnames := namesMethod_of_intern (run.interns_owner.count hcount) (run.owner_named hcount) run.internGuard
  have hbuilt := run.built
  rw [run.parameters_eq] at hbuilt
  rw [buildCalleeDescriptor_described hbuilt] at hnames
  refine ⟨run.parameters.map fun p => straight p.loadOpcode (.local_ p.slot), run.methodref, _, ?_, ?_, ?_,
    hnames.grows (run.guardedValue.interns.grows.trans run.interns_behind.grows)⟩
  · simp [guardPath, guard, forwardNodes, Instruction.plain, newNode, straight]
  · rw [List.length_map, run.parameters_eq, length_described]
  · intro load hl
    obtain ⟨p, hp, rfl⟩ := List.mem_map.mp hl
    rw [run.parameters_eq] at hp
    exact ⟨p.loadOpcode, (mem_described run.argumentCount_le p hp).1, p.slot, rfl⟩

/-- What stands in place of the body is what is asked for exactly when the return type was read off the descriptor. -/
theorem skipPath_iff : SkipPath run.tableTree.constantPool owner argument d.result valueCallee run.skipPath ↔
    ReadsResult d valueCallee := by
  have hcount' := (run.interns_owner.trans run.interns_guard).count hcount
  have howner := run.interns_guard.grows.className (run.owner_named hcount)
  have hreturns : run.returns = (scannedReturn d.text).headD 0 := by rw [returns, run.returnType_eq]
  have hvalue := run.guardedValue
  have hne := (guardableMethod_ok run.found).2.2.2
  rw [run.returnType_eq] at hvalue hne
  rw [skipPath, hreturns]
  generalize run.value = value at hvalue ⊢
  cases hvalue with
  | void hvoid => exact skipPath_void_iff hvoid
  | constant hconstant => exact skipPath_constant_iff hconstant
  | call hcalled hcall =>
    cases hcall with
    | primitive hprimitive hletters hcall =>
      have hnames := namesMethod_of_intern hcount' howner hcall
      rw [valueDescriptor, hprimitive, valueLetters_primitive hne hprimitive hletters] at hnames
      exact skipPath_primitive_iff hcalled hprimitive (hnames.grows run.interns_behind.grows)
    | reference hreference hletters hlength hcall hcast =>
      have hnames := namesMethod_of_intern hcount' howner hcall
      obtain ⟨hinterns, hclass⟩ := internClass_ok hcast
      have hcount'' := (internMethodref_steps hcall).1.count hcount'
      rw [valueDescriptor, if_pos hreference] at hnames
      exact skipPath_reference_iff hreference (hnames.grows (hinterns.grows.trans run.interns_behind.grows))
        (run.interns_behind.grows.className (hclass hcount''))

omit hcount

/-- The old body is not empty: the branch has an instruction to go to. -/
theorem body_nonempty : run.editor.bare.resolve.instructions ≠ [] := by
  intro hempty
  have hitems : run.editor.instructions.items = [] := by
    have hmap : (run.editor.instructions.items.map (·.body)).map
        (·.map run.editor.instructions.names) = [] := hempty
    simpa using hmap
  obtain ⟨-, written, maxStack, -, hedited⟩ := run.edited_eq
  have hlen : run.edited.instructions.items.length = run.editor.instructions.items.length + run.nodes.length := by
    rw [hedited]
    exact length_insertNodes ..
  have hbody := List.getElem?_eq_some_iff.mp run.bodyAt
  obtain ⟨hlt, -⟩ := hbody
  have hlt : run.nodes.length < run.edited.instructions.items.length := hlt
  rw [hlen, hitems, List.length_nil] at hlt
  omega

theorem codeOf_after : codeOf cf' run.index = some run.stored := by
  obtain ⟨maxStack, -, hname⟩ := run.graph_stored
  have hsame : run.tableTree.methods[run.index]? = cf.methods[run.index]? := by rw [run.interns.rest]
  exact (congrArg (codeOf · run.index) run.final).trans
    (codeOf_storedAt (run.interns.edits.codeOf run.codeOf_before hsame) hname)

theorem pool_after : cf'.constantPool = run.tableTree.constantPool := (congrArg ClassFile.constantPool run.final :)

end GuardRun

/-! ## The guard -/

theorem GuardCall.length_eq {pool : ConstantPool} {owner callee : Bytes} {argument : Int} {arguments : Nat}
    {path : List (BodyInstruction (Option Nat))} (h : GuardCall pool owner callee argument arguments path) :
    path.length = arguments + 2 := by
  obtain ⟨loads, call, parameters, rfl, hlen, -⟩ := h
  simp [hlen]

/-- Where the prologue ends is told by the length of the old body, so it splits in one way. -/
theorem GuardsEntry.unique {old new : Body (Option Nat)}
    {guard skip guard' skip' rest : List (BodyInstruction (Option Nat))}
    (h : GuardsEntry old new guard' skip') (hnew : new.instructions = entryNodes guard skip ++ rest)
    (hrest : rest.length = old.instructions.length) (hguard : guard'.length = guard.length) :
    guard' = guard ∧ skip' = skip := by
  have hkept := congrArg List.length h.kept
  have htake := congrArg List.length h.prologue
  simp only [hnew, List.length_map, List.length_drop, List.length_take, List.length_append, List.length_cons,
    length_entryNodes] at hkept htake
  have hcount : guard'.length + 1 + skip'.length = guard.length + 1 + skip.length := by omega
  have hprologue := h.prologue
  rw [hnew, hcount, List.take_left' (length_entryNodes guard skip), entryNodes] at hprologue
  obtain ⟨hg, htail⟩ := List.append_inj hprologue hguard.symm
  exact ⟨hg.symm, (List.cons.inj htail).2.symm⟩

/-- **The guard runs once.** For every guarded call that succeeds, the guard is entered only where the method is and its
answer decides between the old body and the return exactly when no branch, switch or handler of the old body leads to
its first instruction, and the text behind the first closing parenthesis of the descriptor stands for the return
type. -/
theorem guard_runs_once_iff {name owner callee : Bytes} {d : MethodDescriptor} {valueCallee : Option Bytes}
    {argument : Int} {cf cf' : ClassFile} (hcount : cf.constantPool.count ≤ classfileMaxCount)
    (h : classTransformInsertGuardedCall (some name) (some d.text) (some owner) (some callee) valueCallee argument cf =
      .ok () cf') :
    ∃ index method code stored old new, findMethod cf name d.text = some (index, method) ∧
      codeOf cf index = some code ∧ codeOf cf' index = some stored ∧
      codeGraph code = .ok old ∧ codeGraph stored = .ok new ∧
      (RunsGuardOnce cf'.constantPool d (hasFlag method.accessFlags Acc.static_) owner callee valueCallee
        argument old new ↔ (∀ i kind, (kind, 0) ∉ old.successors i) ∧ ReadsResult d valueCallee) := by
  obtain ⟨run⟩ := insertGuardedCall_ok h
  obtain ⟨maxStack, hgraph, -⟩ := run.graph_stored
  rw [run.prologue_eq] at hgraph
  refine ⟨run.index, run.method, run.code, run.stored, _, _, run.findMethod, run.codeOf_before, run.codeOf_after,
    codeGraph_of_load run.loaded, hgraph, ?_⟩
  rw [run.pool_after, ← run.skipPath_iff hcount, ← guardsEntry_iff run.entryShape run.body_nonempty]
  constructor
  · rintro ⟨guard, skip, hguard, hskip, hentry⟩
    have hlen : guard.length = run.guardPath.length := hguard.length_eq.trans run.length_guardPath.symm
    obtain ⟨rfl, rfl⟩ := hentry.unique instructions_entry (List.length_map _) hlen
    exact ⟨hentry, hskip⟩
  · rintro ⟨hentry, hskip⟩
    exact ⟨run.guardPath, run.skipPath, run.guardCall hcount, hskip, hentry⟩

/-- The call went through. -/
def succeeded {α ε σ : Type} : EStateM.Result ε σ α → Bool
  | .ok _ _ => true
  | .error _ _ => false

theorem ok_of_succeeded {ε σ : Type} {r : EStateM.Result ε σ Unit} (h : succeeded r = true) : ∃ s, r = .ok () s := by
  cases r with
  | ok a s => exact ⟨s, rfl⟩
  | error e s => cases h

theorem ok_of_toOption {ε α : Type} {x : Except ε α} {a : α} (h : x.toOption = some a) : x = .ok a := by
  cases x with
  | ok b =>
    cases h
    rfl
  | error e => cases h

/-- A class whose static method `m` has this code and this stack map. -/
def guardedClass (descriptor code frames : Bytes) : ClassFile where
  minorVersion := 0
  majorVersion := 52
  constantPool := ⟨[.utf8 (text "A"), .classInfo 1, .utf8 (text "java/lang/Object"), .classInfo 3, .utf8 (text "m"),
    .utf8 descriptor, .utf8 (text "Code"), .utf8 (text "StackMapTable")]⟩
  accessFlags := 0x21
  thisClass := 2
  superClass := 4
  interfaces := []
  fields := []
  methods := [⟨0x9, 5, 6, [attributeInfoOf 7 ([0, 1, 0, 2, 0, 0, 0, UInt8.ofNat code.length] ++ code ++
    [0, 0, 0, 1, 0, 8, 0, 0, 0, UInt8.ofNat frames.length] ++ frames)]⟩]
  attributes := []

def stringType : FieldType := .object ⟨text "java/lang/String", by decide +kernel⟩

/-- A method that takes a `long` and returns a `String`. -/
def stringDescriptor : MethodDescriptor := ⟨[.base .long], some stringType⟩

/-- It returns `null`. -/
def stringClass : ClassFile := guardedClass stringDescriptor.text [Opc.aconst_null, Opc.areturn] [0, 0]

/-- The guard `G.g` before the body of `m`, with `G.v` for the value. -/
def guardString : Transform Unit :=
  classTransformInsertGuardedCall (some (text "m")) (some stringDescriptor.text) (some (text "G")) (some (text "g"))
    (some (text "v")) 7

theorem guard_runs_once_string : ∃ cf' code stored old new, guardString stringClass = .ok () cf' ∧
    codeOf stringClass 0 = some code ∧ codeOf cf' 0 = some stored ∧ codeGraph code = .ok old ∧
      codeGraph stored = .ok new ∧
    RunsGuardOnce cf'.constantPool stringDescriptor true (text "G") (text "g") (some (text "v")) 7 old new := by
  obtain ⟨cf', h⟩ := ok_of_succeeded (r := guardString stringClass) (by decide +kernel)
  obtain ⟨index, method, code, stored, old, new, hfind, hcode, hstored, hold, hnew, hiff⟩ :=
    guard_runs_once_iff (by decide +kernel) h
  have hmethod : (findMethod stringClass (text "m") stringDescriptor.text).map
      (fun m => (m.1, hasFlag m.2.accessFlags Acc.static_)) = some (0, true) := by decide +kernel
  rw [hfind, Option.map_some, Option.some.injEq, Prod.mk.injEq] at hmethod
  obtain ⟨rfl, hstatic⟩ := hmethod
  rw [hstatic] at hiff
  have hgraph : ((codeOf stringClass 0).map codeGraph).map Except.toOption = some (some
      ⟨1, 2, [straight Opc.aconst_null .none, straight Opc.areturn .none], [], none, none, none, none, [], []⟩) := by
    decide +kernel
  rw [hcode, Option.map_some, Option.map_some, hold] at hgraph
  cases hgraph
  refine ⟨cf', code, stored, _, new, h, hcode, hstored, hold, hnew, hiff.mpr ⟨?_, by decide +kernel, by decide +kernel⟩⟩
  rintro (_ | _ | i) kind hmem
  · simp [Body.successors, straight, BodyInstruction.jumps, Body.returns, Opc.aconst_null, Opc.ret,
      Body.handlers] at hmem
  · simp [Body.successors, straight, BodyInstruction.jumps, Body.returns, Opc.areturn, Opc.ret, Body.handlers] at hmem
  · simp [Body.successors] at hmem

/-- A method that loops without end: `goto` its own first instruction. -/
def loopClass : ClassFile := guardedClass (text "()V") [Opc.goto, 0, 0] [0, 1, 0]

def voidDescriptor : MethodDescriptor := ⟨[], none⟩

def guardLoop : Transform Unit :=
  classTransformInsertGuardedCall (some (text "m")) (some voidDescriptor.text) (some (text "G"))
    (some (text "g")) none 7

/-- The loop goes through the guard: the old `goto` leads into the prologue. -/
theorem guard_entered_by_loop : ∃ cf' code stored old new, guardLoop loopClass = .ok () cf' ∧
    codeOf loopClass 0 = some code ∧ codeOf cf' 0 = some stored ∧ codeGraph code = .ok old ∧
      codeGraph stored = .ok new ∧
    ¬RunsGuardOnce cf'.constantPool voidDescriptor true (text "G") (text "g") none 7 old new := by
  obtain ⟨cf', h⟩ := ok_of_succeeded (r := guardLoop loopClass) (by decide +kernel)
  have hend : endState guardLoop loopClass = cf' := by rw [endState, h]
  have hstored : ((codeOf (endState guardLoop loopClass) 0).map codeGraph).map Except.toOption = some (some
      ⟨2, 2, [straight Opc.sipush (.immediate 7), straight Opc.invokestatic (.cpIndex 14), entryBranch 4,
        straight Opc.return_ .none, ⟨Opc.goto, false, .branch 0, [some 0]⟩], [], none, none, none, none, [], []⟩) := by
    decide +kernel
  have hcode : ((codeOf loopClass 0).map codeGraph).map Except.toOption = some (some
      ⟨1, 2, [⟨Opc.goto, false, .branch 0, [some 0]⟩], [], none, none, none, none, [], []⟩) := by
    decide +kernel
  rw [hend] at hstored
  obtain ⟨_, hmap, hnew⟩ := Option.map_eq_some_iff.mp hstored
  obtain ⟨stored, hstored, rfl⟩ := Option.map_eq_some_iff.mp hmap
  obtain ⟨_, hmap, hold⟩ := Option.map_eq_some_iff.mp hcode
  obtain ⟨code, hcode, rfl⟩ := Option.map_eq_some_iff.mp hmap
  refine ⟨cf', code, stored, _, _, h, hcode, hstored, ok_of_toOption hold, ok_of_toOption hnew, ?_⟩
  rintro ⟨guard, skip, -, -, hentry⟩
  have hedge := hentry.entered 4 .branch 0 (by decide) (by omega)
  cases hedge.1

end Jni2Hook
