import Jni2Hook.Code.TypedInsertion
import Jni2Hook.Transform.ThisPaths

/-!
# The constructor analysis against the paths

What `constructor_init_offset` answers, against the initialising calls of all paths of a constructor.

* `normal_edge_iff`: away from handlers, control goes where the trace goes.
* `codeEffect_apply`: the trace executes an instruction as the JVM does, where it counts the slots of members right.
* `traced_iff`: the paths that the analysis follows are the paths without handlers and subroutines.
* `constructor_analysis_iff`: when its answer is the one the calls of all paths ask for.
-/

namespace Jni2Hook

open Lib

/-! ## Edges -/

/-- The labels of the targets are those of edges that no exception takes, and no `ret`. -/
theorem labels_normal (operand : Operand) : ∀ kind ∈ operand.labels, kind.isNormal = true ∧ kind ≠ .ret := by
  intro kind h
  cases operand <;>
    simp only [Operand.labels, List.mem_cons, List.mem_map, List.not_mem_nil, or_false] at h
  case branch | branchWide =>
    rw [h]
    exact ⟨rfl, by simp⟩
  case tableSwitch | lookupSwitch =>
    rcases h with rfl | ⟨_, -, rfl⟩
    · exact ⟨rfl, by simp⟩
    · exact ⟨rfl, by simp⟩

theorem mem_jumps {b : BodyInstruction (Option Nat)} (hlen : b.operand.labels.length = b.targets.length) {j : Nat} :
    (∃ kind, (kind, j) ∈ b.jumps) ↔ some j ∈ b.targets := by
  unfold BodyInstruction.jumps
  constructor
  · rintro ⟨kind, h⟩
    obtain ⟨⟨label, target⟩, hmem, heq⟩ := List.mem_filterMap.mp h
    obtain ⟨t, rfl, heq⟩ := Option.map_eq_some_iff.mp heq
    cases heq
    exact (List.of_mem_zip hmem).2
  · intro h
    obtain ⟨k, hk, hat⟩ := List.getElem_of_mem h
    have hlabel : k < b.operand.labels.length := by omega
    have hzip : (b.operand.labels[k], some j) ∈ b.operand.labels.zip b.targets :=
      List.mem_iff_getElem.mpr ⟨k, by simp only [List.length_zip]; omega, by rw [List.getElem_zip, hat]⟩
    exact ⟨_, List.mem_filterMap.mpr ⟨_, hzip, rfl⟩⟩

/-- What `flowsOn` says, by the kind of the operand. -/
def kindFlows (kind : OperandKind) (opcode : UInt8) : Bool :=
  match kind with
  | .branch | .branchWide => !isUnconditional opcode
  | .tableSwitch | .lookupSwitch => false
  | _ => !(172 ≤ opcode.toNat && opcode.toNat ≤ 177 || opcode == Opc.athrow)

theorem else_of_ite {p : Prop} [Decidable p] {α : Type} {a b c : α} (h : (if p then a else b) = c) (hne : a ≠ c) :
    b = c := by
  by_cases hp : p
  · rw [if_pos hp] at h
    exact absurd h hne
  · rw [if_neg hp] at h
    exact h

theorem opcode_of_tableSwitch {opcode : UInt8} (h : instructionKindOf opcode = .tableSwitch) :
    opcode = Opc.tableswitch := by
  unfold instructionKindOf at h
  iterate 10 replace h := else_of_ite h (by decide)
  by_contra hne
  rw [if_neg hne] at h
  cases else_of_ite h (by decide)

theorem opcode_of_lookupSwitch {opcode : UInt8} (h : instructionKindOf opcode = .lookupSwitch) :
    opcode = Opc.lookupswitch := by
  unfold instructionKindOf at h
  iterate 11 replace h := else_of_ite h (by decide)
  by_contra hne
  rw [if_neg hne] at h
  cases h

theorem kindFlows_eq {opcode : UInt8} (hret : opcode ≠ Opc.ret) :
    kindFlows (instructionKindOf opcode) opcode = fallsThrough opcode := by
  cases hfalls : fallsThrough opcode with
  | false =>
    simp only [fallsThrough, List.mem_cons, List.not_mem_nil, or_false, decide_not, Bool.not_eq_false',
      decide_eq_true_eq] at hfalls
    rcases hfalls with rfl | rfl | rfl | rfl | rfl | rfl | rfl | rfl | rfl | rfl | rfl | rfl | rfl | rfl <;>
      first | rfl | exact absurd rfl hret
  | true =>
    simp only [fallsThrough, List.mem_cons, List.not_mem_nil, or_false, not_or, decide_eq_true_eq] at hfalls
    obtain ⟨hgoto, hjsr, -, htable, hlookup, hireturn, hlreturn, hfreturn, hdreturn, hareturn,
      hreturn, hathrow, hgoto_w, hjsr_w⟩ := hfalls
    have hjumps : isUnconditional opcode = false := by simp [isUnconditional, hgoto, hgoto_w, hjsr, hjsr_w]
    have hends : (172 ≤ opcode.toNat && opcode.toNat ≤ 177 || opcode == Opc.athrow) = false := by
      have differs {k : UInt8} (h : opcode ≠ k) : opcode.toNat ≠ k.toNat := fun heq => h (UInt8.toNat_inj.mp heq)
      have h₁ : opcode.toNat ≠ 172 := differs hireturn
      have h₂ : opcode.toNat ≠ 173 := differs hlreturn
      have h₃ : opcode.toNat ≠ 174 := differs hfreturn
      have h₄ : opcode.toNat ≠ 175 := differs hdreturn
      have h₅ : opcode.toNat ≠ 176 := differs hareturn
      have h₆ : opcode.toNat ≠ 177 := differs hreturn
      rw [Bool.or_eq_false_iff, beq_eq_false_iff_ne, Bool.and_eq_false_iff, decide_eq_false_iff_not,
        decide_eq_false_iff_not]
      exact ⟨by omega, hathrow⟩
    unfold kindFlows
    split
    · rw [hjumps]
      rfl
    · rw [hjumps]
      rfl
    · rename_i hkind
      exact absurd (opcode_of_tableSwitch hkind) htable
    · rename_i hkind
      exact absurd (opcode_of_lookupSwitch hkind) hlookup
    · rw [hends]
      rfl

/-- The trace goes on to the next instruction where control does, except behind a `ret`. -/
theorem flowsOn_eq {node : Instruction} (he : node.Encodable) (hret : node.opcode ≠ Opc.ret) :
    flowsOn node = fallsThrough node.opcode := by
  have hkind : flowsOn node = kindFlows node.operand.kind node.opcode := by
    obtain ⟨offset, opcode, wide, operand⟩ := node
    cases operand <;> rfl
  rw [hkind, he.kind, kindFlows_eq hret]

theorem length_labels {node : Instruction} (he : node.Encodable) (hsmall : node.operand.allTargets.length ≤ 0x10000) :
    node.body.operand.labels.length = node.operand.targets.length := by
  have htargets := he.allTargets_eq hsmall
  obtain ⟨offset, opcode, wide, operand⟩ := node
  dsimp only at htargets hsmall
  rw [← htargets]
  cases operand with
  | tableSwitch d low high targets =>
    simp [Instruction.body, Operand.blank, Operand.mapTargets, Operand.labels, Operand.allTargets]
    omega
  | _ => simp [Instruction.body, Operand.blank, Operand.mapTargets, Operand.labels, Operand.allTargets]

theorem allTargets_length_le {list : InstructionList} (hl : list.Laid) (hsize : list.codeLength ≤ jvmMaxCodeLength)
    {i : Nat} {node : Instruction} (hnode : list.items[i]? = some node) : node.operand.allTargets.length ≤ 0x10000 := by
  have hmax : jvmMaxCodeLength = 65535 := rfl
  have hstart := hl.start_le (j := i + 1)
  rw [start_succ hnode, Instruction.size] at hstart
  obtain ⟨offset, opcode, wide, operand⟩ := node
  cases operand <;>
    simp only [Operand.size, Operand.allTargets, List.length_cons, List.length_map,
      List.length_nil] at hstart ⊢ <;> omega

/-- The instruction that an offset names. -/
theorem instructionIndexAt_iff {list : InstructionList} (hl : list.Laid) {v : Int} {j : Nat} :
    instructionIndexAt list.items v = some j ↔ j < list.items.length ∧ v = list.start j := by
  constructor
  · intro h
    unfold instructionIndexAt at h
    split at h
    · cases h
    · obtain ⟨hj, hat, -⟩ := List.findIdx?_eq_some_iff_getElem.mp h
      rw [hl.offset_eq (List.getElem?_eq_getElem hj), decide_eq_true_eq] at hat
      exact ⟨hj, hat.symm⟩
  · rintro ⟨hj, rfl⟩
    rw [hl.instructionIndexAt_eq (Nat.le_of_lt hj), if_pos hj]

theorem edge_iff {editor : CodeEditor} {i j : Nat} {kind : EdgeKind} {node : Instruction}
    (hnode : editor.instructions.items[i]? = some node) : editor.Edge i kind j ↔
      (fallsThrough node.opcode = true ∧ kind = .fallThrough ∧ j = i + 1) ∨
        (kind, j) ∈ (node.body.map editor.instructions.names).jumps ∨
        (kind, j) ∈ editor.resolve.returns (node.body.map editor.instructions.names) ∨
        (kind, j) ∈ editor.resolve.handlers i := by
  have hat : editor.resolve.instructions[i]? = some (node.body.map editor.instructions.names) := by
    simp [CodeEditor.resolve, CodeEditor.body, Body.map, hnode]
  rw [CodeEditor.Edge, Body.successors, hat]
  simp only [List.mem_append, BodyInstruction.map, Instruction.body, or_assoc]
  refine or_congr_left ?_
  by_cases hfalls : fallsThrough node.opcode = true
  · simp [hfalls]
  · simp [hfalls]

theorem label_of_jump {b : BodyInstruction (Option Nat)} {kind : EdgeKind} {j : Nat} (h : (kind, j) ∈ b.jumps) :
    kind ∈ b.operand.labels := by
  obtain ⟨⟨label, target⟩, hmem, heq⟩ := List.mem_filterMap.mp h
  obtain ⟨t, -, heq⟩ := Option.map_eq_some_iff.mp heq
  cases heq
  exact (List.of_mem_zip hmem).1

/-- Away from a `ret`, control goes along any edge. -/
theorem goes_of_edge {editor : CodeEditor} {i j : Nat} {kind : EdgeKind} {node : Instruction} {s : ThisState}
    (hnode : editor.instructions.items[i]? = some node) (hret : node.opcode ≠ Opc.ret) (hedge : editor.Edge i kind j) :
    s.Goes node kind j := by
  rintro rfl
  exfalso
  rcases (edge_iff hnode).mp hedge with ⟨-, hkind, -⟩ | hjump | hreturn | hhandler
  · cases hkind
  · exact (labels_normal _ _ (label_of_jump hjump)).2 rfl
  · rw [returns_of_ne _ (show (node.body.map _).opcode ≠ _ from hret)] at hreturn
    cases hreturn
  · cases handlers_not_normal _ _ _ hhandler

/-- Away from handlers, control goes where the trace goes. -/
theorem normal_edge_iff {editor : CodeEditor} (hl : editor.instructions.Laid)
    (hsize : editor.instructions.codeLength ≤ jvmMaxCodeLength) {i j : Nat} {node : Instruction}
    (hnode : editor.instructions.items[i]? = some node) (hret : node.opcode ≠ Opc.ret) :
    (∃ kind, kind.isNormal = true ∧ editor.Edge i kind j) ∧ j < editor.instructions.items.length ↔
      j ∈ traceSuccessors editor.instructions.items i node := by
  have he := hl.encodable node (List.mem_of_getElem? hnode)
  have hsmall := allTargets_length_le hl hsize hnode
  have hjumps : (∃ kind, (kind, j) ∈ (node.body.map editor.instructions.names).jumps) ↔
      j ≤ editor.instructions.items.length ∧ (editor.instructions.start j : Int) ∈ node.operand.allTargets := by
    rw [mem_jumps (by rw [BodyInstruction.map, List.length_map]; exact length_labels he hsmall),
      he.allTargets_eq hsmall]
    simp only [BodyInstruction.map, Instruction.body, List.mem_map, hl.names_iff]
    constructor
    · rintro ⟨v, hv, hj, rfl⟩
      exact ⟨hj, hv⟩
    · rintro ⟨hj, hv⟩
      exact ⟨_, hv, hj, rfl⟩
  rw [mem_traceSuccessors, flowsOn_eq he hret]
  simp only [instructionIndexAt_iff hl]
  constructor
  · rintro ⟨⟨kind, hnormal, hedge⟩, hj⟩
    rcases (edge_iff hnode).mp hedge with ⟨hfalls, -, rfl⟩ | hjump | hreturn | hhandler
    · exact .inr ⟨hfalls, hj, rfl⟩
    · exact .inl ⟨_, (hjumps.mp ⟨kind, hjump⟩).2, hj, rfl⟩
    · rw [returns_of_ne _ (show (node.body.map _).opcode ≠ _ from hret)] at hreturn
      cases hreturn
    · rw [handlers_not_normal _ _ _ hhandler] at hnormal
      cases hnormal
  · rintro (⟨v, hv, hj, rfl⟩ | ⟨hfalls, hj, rfl⟩)
    · obtain ⟨kind, hjump⟩ := hjumps.mpr ⟨Nat.le_of_lt hj, hv⟩
      exact ⟨⟨kind, (labels_normal _ _ (label_of_jump hjump)).1, (edge_iff hnode).mpr (.inr (.inl hjump))⟩, hj⟩
    · exact ⟨⟨.fallThrough, rfl, (edge_iff hnode).mpr (.inl ⟨hfalls, rfl, rfl⟩)⟩, hj⟩

/-! ## The analysis and the instructions -/

/-- `getstatic` to `invokedynamic`. -/
def namesMember (opcode : Nat) : Bool := 178 ≤ opcode && opcode ≤ 186

/-- The types in the descriptor of the member that an instruction names. -/
def memberTypes (pool : ConstantPool) (node : Instruction) : List FieldType :=
  if namesMember node.opcode.toNat then
    (fieldTypeOf pool node).toList ++
      ((methodTypeOf pool node).map fun d => d.parameters ++ d.result.toList).getD []
  else []

section Members

variable {cf : ClassFile} {node : Instruction}

theorem memberDescriptor_of_text {t : Bytes} (h : memberText cf.constantPool node = some t) :
    ∃ index, constantPoolUtf8 cf.constantPool index = some t ∧
      memberDescriptor cf.constantPool node.operand.memberIndex = descriptorSlots cf.constantPool index := by
  obtain ⟨entry, hentry, h⟩ := Option.bind_eq_some_iff.mp h
  obtain ⟨natIndex, hnat, h⟩ := Option.bind_eq_some_iff.mp h
  obtain ⟨⟨name, descriptor⟩, hpair, heq⟩ := Option.bind_eq_some_iff.mp h
  cases heq
  obtain ⟨nameIndex, descriptorIndex, hat, -, hutf8⟩ := nameAndTypeAt_eq_some.mp hpair
  refine ⟨descriptorIndex, hutf8, ?_⟩
  unfold memberDescriptor
  simp only [hentry, hnat, hat, Option.bind_eq_bind, Option.bind_some]

/-- The slots of a member are counted as the JVM counts them, unless an array of `long` or `double` is among its
types. -/
theorem codeMembers_eq (hop : namesMember node.opcode.toNat = true)
    (hcounted : ∀ type ∈ memberTypes cf.constantPool node, type.isWideArray = false)
    {slots : Nat × Nat} (h : jvmMembers cf.constantPool node = some slots) : codeMembers cf node = some slots := by
  unfold jvmMembers at h
  rw [memberTypes, if_pos hop] at hcounted
  split at h
  · obtain ⟨type, htype, rfl⟩ := Option.map_eq_some_iff.mp h
    have hwide : type.isWideArray = false := hcounted type (List.mem_append_left _ (by rw [htype]; simp))
    obtain ⟨t, ht, hread⟩ := Option.bind_eq_some_iff.mp htype
    obtain ⟨⟨read, rest⟩, hread, hend⟩ := Option.bind_eq_some_iff.mp hread
    dsimp only at hend
    split at hend
    · rename_i hnil
      cases hend
      obtain ⟨index, hutf8, hdescriptor⟩ := memberDescriptor_of_text ht
      rw [readFieldType_iff.mp hread, hnil, List.append_nil] at hutf8
      have hwidth := (width_counted_iff type).mpr hwide
      rw [codeMembers, hdescriptor, descriptorSlots_field hutf8, Option.map_some]
      dsimp only
      rw [hwidth]
      rfl
    · cases hend
  · obtain ⟨d, hd, rfl⟩ := Option.map_eq_some_iff.mp h
    have hmem (type : FieldType) (ht : type ∈ d.parameters ++ d.result.toList) : type.isWideArray = false :=
      hcounted type (List.mem_append_right _ (by rw [hd]; exact ht))
    obtain ⟨t, ht, hread⟩ := Option.bind_eq_some_iff.mp hd
    obtain ⟨read, hread, hbound⟩ := Option.bind_eq_some_iff.mp hread
    split at hbound
    · rename_i hle
      cases hbound
      obtain ⟨index, hutf8, hdescriptor⟩ := memberDescriptor_of_text ht
      rw [readMethodDescriptor_iff.mp hread] at hutf8
      have hnone : d.parameters.countP FieldType.isWideArray = 0 := by
        rw [List.countP_eq_zero]
        intro type htype
        simp [hmem type (List.mem_append_left _ htype)]
      have harguments : (UInt16.ofNat (scannedSlots d.parameters)).toNat = d.parameterSlots := by
        rw [scannedSlots_eq, hnone, Nat.add_zero, UInt16.toNat_ofNat', ← MethodDescriptor.parameterSlots,
          Nat.mod_eq_of_lt (by omega)]
      have hresult := (result_counted_iff d).mpr fun type htype =>
        hmem type (List.mem_append_right _ (by simpa using htype))
      rw [codeMembers, hdescriptor, descriptorSlots_method hutf8, Option.map_some, harguments, hresult]
    · cases hbound

theorem jvmMembers_le {slots : Nat × Nat} (h : jvmMembers cf.constantPool node = some slots) : slots.1 ≤ 255 := by
  unfold jvmMembers at h
  split at h
  · obtain ⟨type, -, rfl⟩ := Option.map_eq_some_iff.mp h
    exact Nat.zero_le _
  · obtain ⟨d, hd, rfl⟩ := Option.map_eq_some_iff.mp h
    obtain ⟨t, -, hread⟩ := Option.bind_eq_some_iff.mp hd
    obtain ⟨read, -, hbound⟩ := Option.bind_eq_some_iff.mp hread
    split at hbound
    · cases hbound
      assumption
    · cases hbound

end Members

def SlotShape.isMember : SlotShape → Bool
  | .field _ _ | .invoke _ => true
  | _ => false

theorem namesMember_of_shape {opcode : Nat} {shape : SlotShape} (h : jvmShape opcode = some shape)
    (hmember : shape.isMember = true) : namesMember opcode = true := by
  have rows : ∀ row ∈ jvmTable, row.1.isMember = true → ∀ opcode ∈ row.2, namesMember opcode = true := by decide
  obtain ⟨opcodes, hrow, hopcode⟩ := jvmShape_mem h
  exact rows _ hrow hmember opcode hopcode

/-- The effect of a shape does not look at members that it does not need. -/
theorem effect_of_members {operand : Operand} {shape : SlotShape}
    {members members' : Option (Nat × Nat)} {e : SlotEffect}
    (hmembers : shape.isMember = true → ∀ slots, members = some slots → members' = some slots)
    (h : shape.effect operand members = some e) : shape.effect operand members' = some e := by
  cases shape with
  | field receiver write =>
    obtain ⟨slots, hslots, rfl⟩ := Option.map_eq_some_iff.mp h
    rw [hmembers rfl slots hslots]
    rfl
  | invoke receiver =>
    obtain ⟨slots, hslots, rfl⟩ := Option.map_eq_some_iff.mp h
    rw [hmembers rfl slots hslots]
    rfl
  | _ => exact h

/-- The source has the shapes of the JVMS, except that it leaves alone what negations and conversions of one width
replace, and does not execute subroutines. -/
def shapesAgree (opcode : Nat) : Bool :=
  match jvmShape opcode with
  | none => true
  | some shape =>
    opcode ∈ [Opc.jsr.toNat, Opc.jsr_w.toNat, Opc.ret.toNat] || codeShape opcode = some shape ||
      (isArithmetic opcode && codeShape opcode = some (.replace 0 0) &&
        (shape = .replace 1 1 || shape = .replace 2 2))

theorem shapes_agree (opcode : Nat) : shapesAgree opcode = true := by
  have rows : ∀ row ∈ jvmTable, ∀ opcode ∈ row.2,
      (opcode ∈ [Opc.jsr.toNat, Opc.jsr_w.toNat, Opc.ret.toNat] || codeShape opcode = some row.1 ||
        (isArithmetic opcode && codeShape opcode = some (.replace 0 0) &&
          (row.1 = .replace 1 1 || row.1 = .replace 2 2))) = true := by
    decide
  unfold shapesAgree
  cases h : jvmShape opcode with
  | none => rfl
  | some shape =>
    obtain ⟨opcodes, hrow, hopcode⟩ := jvmShape_mem h
    exact rows _ hrow opcode hopcode

/-- The instruction is a call of an `<init>` on `this` that names this class or its superclass by their own indices. -/
def callsOwn (cf : ClassFile) (node : Instruction) (f : SlotFrame Bool) : Bool :=
  match initCall cf node with
  | some (classIndex, arguments) => takesThis f arguments && (classIndex = cf.thisClass || classIndex = cf.superClass)
  | none => false

section Step

variable {cf : ClassFile} {limit i : Nat} {node : Instruction} {s s' : ThisState}

/-- Replacing numbers by numbers leaves the slots of `this` alone. -/
theorem apply_replace_same {k : Nat} {f g : SlotFrame Bool} (h : (replaceEffect k k).apply limit false f = some g)
    (hnumbers : ∀ x ∈ f.stack.drop (f.stack.length - k), x = false) : g = f := by
  have hfits : (replaceEffect k k).Fits limit f := by
    by_contra hno
    rw [SlotEffect.apply_of_not_fits _ _ _ hno] at h
    cases h
  rw [SlotEffect.apply_of_fits _ _ _ hfits] at h
  cases h
  have hlen : (f.stack.drop (f.stack.length - k)).length = k := by
    have := hfits.1
    rw [List.length_drop]
    simp only [replaceEffect] at this
    omega
  have hdrop : f.stack.drop (f.stack.length - k) = List.replicate k false := List.eq_replicate_iff.mpr ⟨hlen, hnumbers⟩
  have hstack : f.stack.take (f.stack.length - k) ++ List.replicate k false = f.stack := by
    rw [← hdrop, List.take_append_drop]
  simp [replaceEffect, SlotEffect.value, hstack]

theorem apply_replace_none {f : SlotFrame Bool} (hle : f.stack.length ≤ limit) :
    (replaceEffect 0 0).apply limit false f = some f := by
  rw [SlotEffect.apply_of_fits]
  · simp [replaceEffect]
  · simp [SlotEffect.Fits, replaceEffect, hle]

/-- The trace executes an instruction as the JVM does, unless it miscounts a member or meets a subroutine. -/
theorem codeEffect_apply (hcounted : ∀ type ∈ memberTypes cf.constantPool node, type.isWideArray = false)
    (hle : s.frame.stack.length ≤ limit) (hop : node.opcode ∉ [Opc.jsr, Opc.jsr_w, Opc.ret])
    (h : s.execute cf limit i node = some s') :
    ∃ e, codeEffect cf node = some e ∧ e.apply limit false s.frame = some s'.frame := by
  obtain ⟨e, he, happly, -, hnumbers, -⟩ := execute_cases h
  obtain ⟨shape, hshape, heffect⟩ := Option.bind_eq_some_iff.mp he
  have hagree := shapes_agree node.opcode.toNat
  simp only [shapesAgree, hshape, Bool.or_eq_true, Bool.and_eq_true, decide_eq_true_eq] at hagree
  have hmember (hm : shape.isMember = true) : namesMember node.opcode.toNat = true :=
    namesMember_of_shape hshape hm
  have hcode := effect_of_members (fun hm slots hslots => codeMembers_eq (hmember hm) hcounted hslots) heffect
  rcases hagree with (hsub | hsame) | ⟨⟨harithmetic, hkept⟩, hwidths⟩
  · exact absurd (by simpa only [List.mem_cons, UInt8.toNat_inj, List.not_mem_nil] using hsub) hop
  · exact ⟨e, by rw [codeEffect, hsame, Option.bind_some, hcode], happly⟩
  · refine ⟨replaceEffect 0 0, by rw [codeEffect, hkept, Option.bind_some]; rfl, ?_⟩
    have hnumbers := hnumbers harithmetic
    rw [apply_replace_none hle]
    rcases hwidths with rfl | rfl
    all_goals
      cases heffect
      rw [apply_replace_same happly hnumbers]

theorem jvmMembers_of_execute (h : s.execute cf limit i node = some s') (hop : namesMember node.opcode.toNat = true) :
    ∃ slots, jvmMembers cf.constantPool node = some slots := by
  have table : ∀ k < 187, 178 ≤ k → ((jvmShape k).map SlotShape.isMember).getD false = true := by decide +kernel
  simp only [namesMember, Bool.and_eq_true, decide_eq_true_eq] at hop
  obtain ⟨e, he, -⟩ := execute_cases h
  obtain ⟨shape, hshape, heffect⟩ := Option.bind_eq_some_iff.mp he
  have hrow := table node.opcode.toNat (by omega) hop.1
  rw [hshape, Option.map_some, Option.getD_some] at hrow
  cases shape with
  | field receiver write =>
    obtain ⟨slots, hslots, -⟩ := Option.map_eq_some_iff.mp heffect
    exact ⟨slots, hslots⟩
  | invoke receiver =>
    obtain ⟨slots, hslots, -⟩ := Option.map_eq_some_iff.mp heffect
    exact ⟨slots, hslots⟩
  | _ => cases hrow

/-- The parts of a call of an `<init>`. -/
theorem initCall_eq_some {classIndex : UInt16} {arguments : Nat} : initCall cf node = some (classIndex, arguments) ↔
    node.opcode = Opc.invokespecial ∧ ∃ natIndex name d,
      constantPoolAt cf.constantPool node.operand.memberIndex = some (.methodref classIndex natIndex) ∧
      nameAndTypeAt cf.constantPool natIndex = some (text "<init>", name) ∧
      methodTypeOf cf.constantPool node = some d ∧ arguments = d.parameterSlots := by
  unfold initCall
  constructor
  · intro h
    split at h
    · rename_i hop
      split at h
      · rename_i c natIndex hat
        split at h
        · rename_i name descriptor hpair
          split at h
          · rename_i hname
            obtain ⟨d, hd, heq⟩ := Option.map_eq_some_iff.mp h
            cases heq
            exact ⟨hop, natIndex, descriptor, d, hat, by rw [hpair, hname], hd, rfl⟩
          · cases h
        · cases h
      · cases h
    · cases h
  · rintro ⟨hop, natIndex, descriptor, d, hat, hpair, hd, rfl⟩
    rw [if_pos hop, hat]
    simp only [hpair, hd, if_true, Option.map_some]

theorem operand_of_invokespecial (he : node.Encodable) (hop : node.opcode = Opc.invokespecial) :
    ∃ index, node.operand = .cpIndex index := by
  have hkind := he.kind
  rw [hop] at hkind
  cases hoperand : node.operand with
  | cpIndex index => exact ⟨index, rfl⟩
  | _ =>
    rw [hoperand] at hkind
    cases hkind

/-- The analysis recognises the calls that name their class by its index. -/
theorem receivesThis_eq (he : node.Encodable)
    (hcounted : ∀ type ∈ memberTypes cf.constantPool node, type.isWideArray = false)
    (h : s.execute cf limit i node = some s') (f : SlotFrame Bool) : receivesThis cf node f = callsOwn cf node f := by
  unfold receivesThis callsOwn
  cases hcall : initCall cf node with
  | some call =>
    obtain ⟨classIndex, arguments⟩ := call
    obtain ⟨hop, natIndex, descriptor, d, hat, hpair, hd, rfl⟩ := initCall_eq_some.mp hcall
    obtain ⟨nameIndex, descriptorIndex, hnat, hname, hdescriptor⟩ := nameAndTypeAt_eq_some.mp hpair
    have hmembers : jvmMembers cf.constantPool node = some (d.parameterSlots, d.resultSlots) := by
      rw [jvmMembers, if_neg (by rw [hop]; decide), hd]
      rfl
    have hslots := codeMembers_eq (by rw [hop]; decide) hcounted hmembers
    obtain ⟨slots, hslots, heq⟩ := Option.map_eq_some_iff.mp hslots
    have harguments : slots.1.toNat = d.parameterSlots := (Prod.mk.inj heq).1
    have hread : descriptorSlots cf.constantPool descriptorIndex = some slots := by
      unfold memberDescriptor at hslots
      simpa only [hat, memberNatIndex, hnat, Option.bind_eq_bind, Option.bind_some] using hslots
    obtain ⟨index, hoperand⟩ := operand_of_invokespecial he hop
    rw [hoperand] at hat
    dsimp only
    by_cases hown : classIndex = cf.thisClass ∨ classIndex = cf.superClass
    · have hinit : isInitializingCall cf node = some slots.1 := isInitializingCall_eq_some.mpr
        ⟨index, classIndex, natIndex, nameIndex, descriptorIndex, hoperand, hop, hat, hown, hnat,
          by rw [constantPoolUtf8Equals, hname]; exact beq_self_eq_true _, by rw [hread]; rfl⟩
      have htrue : (decide (classIndex = cf.thisClass) || decide (classIndex = cf.superClass)) =
        true := by simpa using hown
      rw [hinit, htrue, Bool.and_true]
      dsimp only
      rw [harguments]
      rfl
    · have hinit : isInitializingCall cf node = none := by
        by_contra hne
        obtain ⟨a, ha⟩ := Option.ne_none_iff_exists'.mp hne
        obtain ⟨index', c, n, nameIndex', descriptorIndex', hoperand', -, hat', hown', -⟩ :=
          isInitializingCall_eq_some.mp ha
        rw [hoperand] at hoperand'
        cases hoperand'
        rw [show constantPoolAt cf.constantPool index = _ from hat] at hat'
        cases hat'
        exact hown hown'
      have hfalse : (decide (classIndex = cf.thisClass) || decide (classIndex = cf.superClass)) = false := by
        simpa using hown
      rw [hinit, hfalse, Bool.and_false]
  | none =>
    have hinit : isInitializingCall cf node = none := by
      by_contra hne
      obtain ⟨a, ha⟩ := Option.ne_none_iff_exists'.mp hne
      obtain ⟨index, c, n, nameIndex, descriptorIndex, hoperand, hop, hat, -, hnat, hname, hslots⟩ :=
        isInitializingCall_eq_some.mp ha
      obtain ⟨slots, hmembers⟩ := jvmMembers_of_execute h (by rw [hop]; rfl)
      rw [jvmMembers, if_neg (by rw [hop]; decide)] at hmembers
      obtain ⟨d, hd, -⟩ := Option.map_eq_some_iff.mp hmembers
      obtain ⟨t, ht, -⟩ := Option.bind_eq_some_iff.mp hd
      obtain ⟨entry, hentry, ht⟩ := Option.bind_eq_some_iff.mp ht
      obtain ⟨natIndex, hindex, ht⟩ := Option.bind_eq_some_iff.mp ht
      obtain ⟨⟨name, descriptor⟩, hpair, -⟩ := Option.bind_eq_some_iff.mp ht
      have hmember : node.operand.memberIndex = index := by rw [hoperand]; rfl
      rw [hmember, hat] at hentry
      cases hentry
      cases hindex
      obtain ⟨nameIndex', descriptorIndex', hnat', hname', -⟩ := nameAndTypeAt_eq_some.mp hpair
      rw [hnat] at hnat'
      cases hnat'
      rw [constantPoolUtf8Equals, hname', beq_iff_eq, Option.some.injEq] at hname
      have hsome := initCall_eq_some.mpr ⟨hop, n, descriptor,
        d, by rw [hmember]; exact hat, by rw [hpair, hname], hd, rfl⟩
      rw [hcall] at hsome
      cases hsome
    rw [hinit]

end Step

/-! ## The paths that the analysis follows -/

/-- The analysis follows no handler and no subroutine, and stops at the calls it recognises. -/
def Followed (cf : ClassFile) (s : ThisState) (node : Instruction) (kind : EdgeKind) : Prop :=
  kind.isNormal = true ∧ node.opcode ∉ [Opc.jsr, Opc.jsr_w, Opc.ret] ∧ callsOwn cf node s.frame = false

/-- The calls on the paths that the analysis follows, of an `<init>` of a class that is named by the index of this class
or of its superclass. -/
def followedCalls (cf : ClassFile) (editor : CodeEditor) : Set Nat :=
  thisCalls cf editor (Followed cf) fun classIndex => classIndex = cf.thisClass ∨ classIndex = cf.superClass

/-- No instruction on these paths names a member with an array of `long` or `double` in its descriptor. -/
def Counted (cf : ClassFile) (editor : CodeEditor) : Prop :=
  ∀ i s node, Arrives cf editor (Followed cf) i s → editor.instructions.items[i]? = some node →
    ∀ type ∈ memberTypes cf.constantPool node, type.isWideArray = false

section Follow

variable {cf : ClassFile} {editor : CodeEditor}

/-- Away from handlers, the stack stays within its bound. -/
theorem Arrives.stack_le {i : Nat} {s : ThisState} (h : Arrives cf editor (Followed cf) i s) :
    s.frame.stack.length ≤ editor.maxStack.toNat := by
  cases h with
  | entry => exact Nat.zero_le _
  | flow path hat hallows hexecuted hnormal hedge hgoes =>
    obtain ⟨e, -, happly, -⟩ := execute_cases hexecuted
    exact (e.length_apply _ happly).2
  | thrown path hat hallows hhandled hedge =>
    rw [hallows.1] at hhandled
    cases hhandled

/-- The trace has no effect for the instructions of subroutines. -/
theorem no_subroutine {node : Instruction} {e : SlotEffect} (heffect : codeEffect cf node = some e) :
    node.opcode ∉ [Opc.jsr, Opc.jsr_w, Opc.ret] := by
  have table : codeShape Opc.jsr.toNat = none ∧ codeShape Opc.jsr_w.toNat = none ∧ codeShape Opc.ret.toNat = none := by
    decide
  intro hmem
  simp only [List.mem_cons, List.not_mem_nil, or_false] at hmem
  obtain ⟨shape, hshape, -⟩ := Option.bind_eq_some_iff.mp heffect
  rcases hmem with hop | hop | hop <;> rw [hop] at hshape
  · rw [table.1] at hshape
    cases hshape
  · rw [table.2.1] at hshape
    cases hshape
  · rw [table.2.2] at hshape
    cases hshape

/-- The end of an instruction is where the next one begins. -/
theorem offset_end (hl : editor.instructions.Laid) (hsize : editor.instructions.codeLength ≤ jvmMaxCodeLength)
    {i : Nat} {node : Instruction} (hat : editor.instructions.items[i]? = some node) :
    u4 (node.offset + instructionLengthAt node node.offset) = editor.instructions.start (i + 1) := by
  have hmax : jvmMaxCodeLength = 65535 := rfl
  have hle := hl.start_le (j := i + 1)
  have hsucc := start_succ hat
  rw [hl.offset_eq hat, (hl.encodable node (List.mem_of_getElem? hat)).lengthAt_eq (by omega), ← hsucc, u4]
  exact Nat.mod_eq_of_lt (by omega)

variable (h : Verified cf editor) (hl : editor.instructions.Laid) (hcounted : Counted cf editor)

include h hl hcounted

/-- A path that the analysis may follow is one that it follows. -/
theorem traced_of_arrives {i : Nat} {s : ThisState} (path : Arrives cf editor (Followed cf) i s) :
    Traced cf editor i s.frame := by
  induction path with
  | entry => exact .entry
  | @flow i j kind node s s' path hat hallows hexecuted hnormal hedge hgoes ih =>
    obtain ⟨-, hop, hown⟩ := hallows
    have hret : node.opcode ≠ Opc.ret := fun hret => hop (by simp [hret])
    have htypes := hcounted i s node path hat
    obtain ⟨e, heffect, happly⟩ := codeEffect_apply htypes path.stack_le hop hexecuted
    have hpasses : receivesThis cf node s.frame = false := by
      rw [receivesThis_eq (hl.encodable node (List.mem_of_getElem? hat)) htypes hexecuted]
      exact hown
    have hj : j < editor.instructions.items.length := by
      obtain ⟨next, -, hnext, -⟩ := h.executes (path.any.flow hat trivial hexecuted hnormal hedge hgoes)
      exact (List.getElem?_eq_some_iff.mp hnext).1
    exact .step ih hat hpasses heffect happly ((normal_edge_iff hl h.size hat hret).mp ⟨⟨kind, hnormal, hedge⟩, hj⟩)
  | thrown path hat hallows hhandled hedge =>
    rw [hallows.1] at hhandled
    cases hhandled

theorem arrives_of_traced {i : Nat} {f : SlotFrame Bool} (path : Traced cf editor i f) :
    ∃ b addresses, Arrives cf editor (Followed cf) i ⟨f, b, addresses⟩ := by
  induction path with
  | entry => exact ⟨false, _, .entry⟩
  | @step i j f g node e path hat hpasses heffect hexecuted hedge ih =>
    obtain ⟨b, addresses, harrives⟩ := ih
    have htypes := hcounted i _ node harrives hat
    have hop := no_subroutine heffect
    have hret : node.opcode ≠ Opc.ret := fun hret => hop (by simp [hret])
    obtain ⟨node', s', hat', hexecute⟩ := h.executes harrives.any
    rw [hat] at hat'
    cases hat'
    obtain ⟨e', heffect', happly⟩ := codeEffect_apply htypes harrives.stack_le hop hexecute
    rw [heffect] at heffect'
    cases heffect'
    rw [hexecuted] at happly
    cases happly
    rw [receivesThis_eq (hl.encodable node (List.mem_of_getElem? hat)) htypes hexecute] at hpasses
    obtain ⟨⟨kind, hnormal, hedge⟩, -⟩ := (normal_edge_iff hl h.size hat hret).mpr hedge
    exact ⟨s'.initialised, s'.addresses,
      harrives.flow hat ⟨hnormal, hop, hpasses⟩ hexecute hnormal hedge (goes_of_edge hat hret hedge)⟩

/-- The analysis follows the paths without handlers and subroutines, up to the calls that it recognises. -/
theorem traced_iff {i : Nat} {f : SlotFrame Bool} :
    Traced cf editor i f ↔ ∃ b addresses, Arrives cf editor (Followed cf) i ⟨f, b, addresses⟩ := by
  refine ⟨arrives_of_traced h hl hcounted, ?_⟩
  rintro ⟨b, addresses, path⟩
  exact traced_of_arrives h hl hcounted path

theorem traceable_of_verified : Traceable cf editor := by
  refine ⟨h.locals, fun hf hg => ?_, fun {i f g node} hf hg hat => ?_, fun {i f node} hf hat hop slots hslots => ?_⟩
  · obtain ⟨_, _, hs⟩ := arrives_of_traced h hl hcounted hf
    obtain ⟨_, _, ht⟩ := arrives_of_traced h hl hcounted hg
    exact h.depth hs.any ht.any
  · obtain ⟨_, _, hs⟩ := arrives_of_traced h hl hcounted hf
    obtain ⟨_, _, ht⟩ := arrives_of_traced h hl hcounted hg
    obtain ⟨node', s', hat', hexecute⟩ := h.executes hs.any
    rw [hat] at hat'
    cases hat'
    have htypes := hcounted i _ node hs hat
    have he := hl.encodable node (List.mem_of_getElem? hat)
    rw [receivesThis_eq he htypes hexecute, receivesThis_eq he htypes hexecute]
    unfold callsOwn
    split
    · rename_i classIndex arguments hcall
      rw [h.receivers hs.any ht.any hat hcall]
    · rfl
  · obtain ⟨_, _, hs⟩ := arrives_of_traced h hl hcounted hf
    obtain ⟨node', s', hat', hexecute⟩ := h.executes hs.any
    rw [hat] at hat'
    cases hat'
    have hnames : namesMember node.opcode.toNat = true := by
      simp only [namesMember, Bool.and_eq_true, decide_eq_true_eq]
      omega
    obtain ⟨members, hmembers⟩ := jvmMembers_of_execute hexecute hnames
    rw [codeMembers_eq hnames (hcounted i _ node hs hat) hmembers] at hslots
    cases hslots
    have := jvmMembers_le hmembers
    omega

theorem tracedCalls_eq : tracedCalls cf editor = followedCalls cf editor := by
  ext a
  constructor
  · rintro ⟨i, f, node, path, hat, hreceives, rfl⟩
    obtain ⟨b, addresses, hs⟩ := arrives_of_traced h hl hcounted path
    obtain ⟨node', s', hat', hexecute⟩ := h.executes hs.any
    rw [hat] at hat'
    cases hat'
    rw [receivesThis_eq (hl.encodable node (List.mem_of_getElem? hat)) (hcounted i _ node hs hat) hexecute] at hreceives
    unfold callsOwn at hreceives
    split at hreceives
    · rename_i classIndex arguments hcall
      simp only [Bool.and_eq_true, Bool.or_eq_true, decide_eq_true_eq] at hreceives
      exact ⟨i, ⟨f, b, addresses⟩, node, classIndex, arguments, hs, hat, hcall, hreceives.1, hreceives.2,
        offset_end hl h.size hat⟩
    · cases hreceives
  · rintro ⟨i, s, node, classIndex, arguments, hs, hat, hcall, htakes, hown, rfl⟩
    obtain ⟨node', s', hat', hexecute⟩ := h.executes hs.any
    rw [hat] at hat'
    cases hat'
    refine ⟨i, s.frame, node, traced_of_arrives h hl hcounted hs, hat, ?_, (offset_end hl h.size hat).symm⟩
    rw [receivesThis_eq (hl.encodable node (List.mem_of_getElem? hat)) (hcounted i _ node hs hat) hexecute]
    simp only [callsOwn, hcall, htakes, Bool.true_and, Bool.or_eq_true, decide_eq_true_eq]
    exact hown

omit hl hcounted in
theorem followedCalls_subset : followedCalls cf editor ⊆ initialisingCalls cf editor := by
  rintro a ⟨i, s, node, classIndex, arguments, hs, hat, hcall, htakes, -, rfl⟩
  obtain ⟨node', s', hat', hexecute⟩ := h.executes hs.any
  rw [hat] at hat'
  cases hat'
  refine ⟨i, s, node, classIndex, arguments, hs.any, hat, hcall, htakes, ?_, rfl⟩
  obtain ⟨-, -, -, -, -, ⟨c, a, hcall', -, -, hown, -⟩ | ⟨hnone, -⟩⟩ := execute_cases hexecute
  · rw [hcall] at hcall'
    cases hcall'
    exact hown
  · rw [hnone _ _ hcall] at htakes
    cases htakes

end Follow

/-- The members of the states that a constructor is checked with are all that the analysis counts. -/
theorem Verifies.counted {cf : ClassFile} {editor : CodeEditor} {states : List (Nat × ThisState)}
    (h : Verifies cf editor states) (htypes : ∀ p ∈ states, ∀ node ∈ editor.instructions.items[p.1]?,
      ∀ type ∈ memberTypes cf.constantPool node, type.isWideArray = false) : Counted cf editor := by
  intro i s node path hat
  exact htypes _ (h.mem path.any) node hat

/-- **The constructor analysis.** Its answer is the one that the initialising calls of all paths ask for exactly when
they are all on the paths that it follows, with the indices that it looks for, or two of these are. -/
theorem constructor_analysis_iff {code : AttributeInfo} {cf : ClassFile} {editor : CodeEditor}
    (hload : codeEditorLoad code cf.constantPool = .ok editor) (h : Verified cf editor) (hcounted : Counted cf editor) :
    (constructorInitOffset cf editor).Answers (initialisingCalls cf editor) ↔
      followedCalls cf editor = initialisingCalls cf editor ∨ (followedCalls cf editor).Nontrivial := by
  have hl := (coherent_of_load hload).instructions
  have hanswers : (constructorInitOffset cf editor).Answers (followedCalls cf editor) := by
    rw [← tracedCalls_eq h hl hcounted]
    exact constructorInitOffset_traced (traceable_of_verified h hl hcounted)
  constructor
  · exact hanswers.unique
  · rintro (heq | htwo)
    · rw [← heq]
      exact hanswers
    · have hall := htwo.mono (followedCalls_subset h)
      refine ⟨fun a ha => ?_, fun hnone => ?_, fun _ => hanswers.ambiguous htwo⟩
      · rw [ha] at hall
        exact absurd hall Set.not_nontrivial_singleton
      · rw [hnone] at hall
        exact absurd hall Set.not_nontrivial_empty

/-- A class `A` with one constructor and a static method `f`. -/
def constructorClass (code : AttributeInfo) : ClassFile where
  minorVersion := 0
  majorVersion := 49
  constantPool := ⟨[.utf8 (text "A"), .classInfo 1, .utf8 (text "java/lang/Object"), .classInfo 3,
    .utf8 (text "<init>"), .utf8 (text "()V"), .nameAndType 5 6, .methodref 4 7, .utf8 (text "f"),
      .nameAndType 9 6, .methodref 2 10,
    .utf8 (text "Code")]⟩
  accessFlags := 0x21
  thisClass := 2
  superClass := 4
  interfaces := []
  fields := []
  methods := [⟨0x1, 5, 6, [code]⟩]
  attributes := []

/-- `super(); return;`. -/
def plainConstructor : AttributeInfo :=
  attributeInfoOf 12 [0, 1, 0, 1, 0, 0, 0, 5, 0x2A, 0xB7, 0, 8, 0xB1, 0, 0, 0, 0]

def plainNodes : List Instruction :=
  [⟨0, 0x2A, false, .none⟩, ⟨1, 0xB7, false, .cpIndex 8⟩, ⟨4, 0xB1, false, .none⟩]

def plainEditor : CodeEditor := ⟨1, 1, ⟨plainNodes, 5⟩, [], none, none, none, none, [], []⟩

def plainStates : List (Nat × ThisState) :=
  [(0, .outside ⟨[true], []⟩ false), (1, .outside ⟨[true], [true]⟩ false), (2, .outside ⟨[true], []⟩ true)]

theorem verifies_plain : Verifies (constructorClass plainConstructor) plainEditor plainStates :=
  ⟨by decide, by decide, by decide, by decide, by decide, by decide⟩

theorem plain_arrives : Arrives (constructorClass plainConstructor) plainEditor
    (Followed (constructorClass plainConstructor)) 1 (.outside ⟨[true], [true]⟩ false) := by
  have hedge : (EdgeKind.fallThrough, 1) ∈ plainEditor.resolve.successors 0 := by decide
  exact .flow .entry rfl ⟨rfl, by decide, by decide⟩ (by decide) rfl hedge (by decide)

/-- In `super(); return;` the analysis finds the one call. -/
theorem constructor_analysis_plain :
    (constructorInitOffset (constructorClass plainConstructor) plainEditor).Answers
        (initialisingCalls (constructorClass plainConstructor) plainEditor) ∧
      initialisingCalls (constructorClass plainConstructor) plainEditor = {4} := by
  have hverified := verifies_plain.verified
  have hfollowed : 4 ∈ followedCalls (constructorClass plainConstructor) plainEditor :=
    ⟨1, _, _, 4, 0, plain_arrives, rfl, by decide, by decide, .inr rfl, rfl⟩
  have hall : initialisingCalls (constructorClass plainConstructor) plainEditor = {4} := by
    refine Set.Subset.antisymm ?_ (Set.singleton_subset_iff.mpr (followedCalls_subset hverified hfollowed))
    rintro a ⟨i, s, node, classIndex, arguments, path, hat, hcall, -, -, rfl⟩
    have hends : ∀ p ∈ plainStates, ∀ node ∈ plainEditor.instructions.items[p.1]?,
        (initCall (constructorClass plainConstructor) node).isSome = true →
          plainEditor.instructions.start (p.1 + 1) = 4 := by
      decide
    exact hends _ (verifies_plain.mem path) node hat (by rw [hcall]; rfl)
  have hload : codeEditorLoad plainConstructor (constructorClass plainConstructor).constantPool = .ok plainEditor := by
    decide
  refine ⟨(constructor_analysis_iff hload hverified (verifies_plain.counted (by decide))).mpr (.inl ?_), hall⟩
  refine Set.Subset.antisymm (followedCalls_subset hverified) ?_
  rw [hall]
  exact Set.singleton_subset_iff.mpr hfollowed

/-- `f(); super(); return;`, where an exception of `f` is caught and `super()` called in the handler. -/
def caughtConstructor : AttributeInfo :=
  attributeInfoOf 12 [0, 1, 0, 1, 0, 0, 0, 14, 0xB8, 0, 11, 0x2A, 0xB7, 0, 8, 0xB1, 0x57, 0x2A, 0xB7, 0, 8, 0xB1,
    0, 1, 0, 0, 0, 3, 0, 8, 0, 0, 0, 0]

def caughtNodes : List Instruction :=
  [⟨0, 0xB8, false, .cpIndex 11⟩, ⟨3, 0x2A, false, .none⟩, ⟨4, 0xB7, false, .cpIndex 8⟩, ⟨7, 0xB1, false, .none⟩,
    ⟨8, 0x57, false, .none⟩, ⟨9, 0x2A, false, .none⟩, ⟨10, 0xB7, false, .cpIndex 8⟩, ⟨13, 0xB1, false, .none⟩]

def caughtEditor : CodeEditor := ⟨1, 1, ⟨caughtNodes, 14⟩, [⟨0, 3, 8, 0⟩], none, none, none, none, [], []⟩

def caughtStates : List (Nat × ThisState) :=
  [(0, .outside ⟨[true], []⟩ false), (1, .outside ⟨[true], []⟩ false), (2, .outside ⟨[true], [true]⟩ false),
    (3, .outside ⟨[true], []⟩ true), (4, .outside ⟨[true], [false]⟩ false), (5, .outside ⟨[true], []⟩ false),
    (6, .outside ⟨[true], [true]⟩ false), (7, .outside ⟨[true], []⟩ true)]

theorem verifies_caught : Verifies (constructorClass caughtConstructor) caughtEditor caughtStates :=
  ⟨by decide, by decide, by decide, by decide, by decide, by decide⟩

/-- The handler is not followed: the answer is the first of the two calls, as if there were no other. -/
theorem caught_call_not_followed :
    codeEditorLoad caughtConstructor (constructorClass caughtConstructor).constantPool = .ok caughtEditor ∧
      Verified (constructorClass caughtConstructor) caughtEditor ∧
      constructorInitOffset (constructorClass caughtConstructor) caughtEditor = .found 7 ∧
      (initialisingCalls (constructorClass caughtConstructor) caughtEditor).Nontrivial ∧
      ¬(constructorInitOffset (constructorClass caughtConstructor) caughtEditor).Answers
        (initialisingCalls (constructorClass caughtConstructor) caughtEditor) := by
  have hanswer : constructorInitOffset (constructorClass caughtConstructor) caughtEditor = .found 7 := by
    decide
  have hsecond : Arrives (constructorClass caughtConstructor) caughtEditor anyEdge 1 (.outside ⟨[true], []⟩ false) :=
    Arrives.entry.next (by decide)
  have hbody : Arrives (constructorClass caughtConstructor) caughtEditor anyEdge 2 (.outside ⟨[true], [true]⟩ false) :=
    hsecond.next (by decide)
  have hcaught : Arrives (constructorClass caughtConstructor) caughtEditor anyEdge 4
    (.outside ⟨[true], [false]⟩ false) :=
    Arrives.entry.next (by decide)
  have hpopped : Arrives (constructorClass caughtConstructor) caughtEditor anyEdge 5 (.outside ⟨[true], []⟩ false) :=
    hcaught.next (by decide)
  have hhandler : Arrives (constructorClass caughtConstructor) caughtEditor anyEdge 6
    (.outside ⟨[true], [true]⟩ false) :=
    hpopped.next (by decide)
  have htwo : (initialisingCalls (constructorClass caughtConstructor) caughtEditor).Nontrivial :=
    ⟨7, ⟨2, _, _, 4, 0, hbody, rfl, by decide, by decide, by decide, rfl⟩,
      13, ⟨6, _, _, 4, 0, hhandler, rfl, by decide, by decide, by decide, rfl⟩, by decide⟩
  refine ⟨by decide, verifies_caught.verified, hanswer, htwo, fun h => ?_⟩
  have hambiguous := h.ambiguous htwo
  rw [hanswer] at hambiguous
  cases hambiguous

/-- `jsr S; super(); return; S: astore_1; ret 1;`. -/
def subroutineConstructor : AttributeInfo :=
  attributeInfoOf 12 [0, 1, 0, 2, 0, 0, 0, 11, 0xA8, 0, 8, 0x2A, 0xB7, 0, 8, 0xB1, 0x4C, 0xA9, 1, 0, 0, 0, 0]

def subroutineNodes : List Instruction :=
  [⟨0, 0xA8, false, .branch 8⟩, ⟨3, 0x2A, false, .none⟩, ⟨4, 0xB7, false, .cpIndex 8⟩, ⟨7, 0xB1, false, .none⟩,
    ⟨8, 0x4C, false, .none⟩, ⟨9, 0xA9, false, .local_ 1⟩]

def subroutineEditor : CodeEditor := ⟨1, 2, ⟨subroutineNodes, 11⟩, [], none, none, none, none, [], []⟩

def subroutineStates : List (Nat × ThisState) :=
  [(0, .outside ⟨[true, false], []⟩ false), (4, ⟨⟨[true, false], [false]⟩, false, ⟨[none, none], [some 1]⟩⟩),
    (5, ⟨⟨[true, false], []⟩, false, ⟨[none, some 1], []⟩⟩), (1, ⟨⟨[true, false], []⟩, false, ⟨[none, some 1], []⟩⟩),
    (2, ⟨⟨[true, false], [true]⟩, false, ⟨[none, some 1], [none]⟩⟩),
    (3, ⟨⟨[true, false], []⟩, true, ⟨[none, some 1], []⟩⟩)]

/-- Nor is a subroutine: its `ret` leads to the one call of the constructor, and the answer is that there is none. -/
example : Verifies (constructorClass subroutineConstructor) subroutineEditor subroutineStates ∧
    constructorInitOffset (constructorClass subroutineConstructor) subroutineEditor = .missing ∧
    7 ∈ initialisingCalls (constructorClass subroutineConstructor) subroutineEditor := by
  have hcalled : Arrives (constructorClass subroutineConstructor) subroutineEditor anyEdge 4
      ⟨⟨[true, false], [false]⟩, false, ⟨[none, none], [some 1]⟩⟩ :=
    Arrives.entry.next (by decide)
  have hstored : Arrives (constructorClass subroutineConstructor) subroutineEditor anyEdge 5
      ⟨⟨[true, false], []⟩, false, ⟨[none, some 1], []⟩⟩ :=
    hcalled.next (by decide)
  have hreturned : Arrives (constructorClass subroutineConstructor) subroutineEditor anyEdge 1
      ⟨⟨[true, false], []⟩, false, ⟨[none, some 1], []⟩⟩ :=
    hstored.next (by decide)
  have hloaded : Arrives (constructorClass subroutineConstructor) subroutineEditor anyEdge 2
      ⟨⟨[true, false], [true]⟩, false, ⟨[none, some 1], [none]⟩⟩ :=
    hreturned.next (by decide)
  exact ⟨⟨by decide, by decide, by decide, by decide, by decide, by decide⟩, by decide,
    2, _, _, 4, 0, hloaded, rfl, by decide, by decide, by decide, rfl⟩

end Jni2Hook
