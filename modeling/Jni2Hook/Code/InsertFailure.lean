import Jni2Hook.Code.InsertionRoundTrip

/-!
# What a failed insertion leaves behind

`code_editor_insert` checks the point, the stack and every reference before it writes anything, and flushes the type
annotations at the end, when everything is written.

* `typeAnnotationFlush_iff`: in an editor that was loaded, the flush fails only over offsets that do not fit.
* `InsertAccepted`, `codeEditorInsert_accepted`: past the checks, the flush decides.
* `insert_all_or_nothing_iff`: a failed insertion leaves the editor as it was exactly when it fails before the flush.
-/

namespace Jni2Hook

open Lib

/-! ## The flush -/

/-- The bytes of a reference lie in its attribute. -/
def TypeAnnotationRef.Placed (attributes : List AttributeInfo) (ref : TypeAnnotationRef) : Prop :=
  ∃ a, attributes[ref.attributeIndex]? = some a ∧ ref.payloadOffset + ref.width ≤ a.attributeLength.toNat

theorem annotationsIn_within {pool : ConstantPool} {index count : Nat} {a : AttributeInfo}
    {refs : List TypeAnnotationRef} (ha : a.WellFormed) (h : annotationsIn pool index count a = .ok refs) :
    ∀ ref ∈ refs, ref.attributeIndex = index ∧ ref.payloadOffset + ref.width ≤ a.attributeLength.toNat := by
  intro ref hr
  rw [annotationsIn] at h
  split at h
  · rw [payload_of_wellFormed ha] at h
    obtain ⟨⟨-, hwithin⟩, hindex⟩ := (collect_fill h).1 ref hr
    rw [AttributeInfo.WellFormed] at ha
    exact ⟨hindex, by omega⟩
  · cases h
    cases hr

/-- The references of a walk lie in the attributes that were walked. -/
theorem annotationsFrom_within {pool : ConstantPool} : ∀ {others : List AttributeInfo} {index count : Nat}
    {refs : List TypeAnnotationRef}, (∀ a ∈ others, a.WellFormed) → annotationsFrom pool index count others = .ok refs →
    ∀ ref ∈ refs, ∃ k a, ref.attributeIndex = index + k ∧ others[k]? = some a ∧
      ref.payloadOffset + ref.width ≤ a.attributeLength.toNat
  | [], index, count, refs, _, h, ref, hr => by
    cases h
    cases hr
  | a :: rest, index, count, refs, hall, h, ref, hr => by
    rw [annotationsFrom] at h
    obtain ⟨found, hfound, h⟩ := bind_ok h
    obtain ⟨more, hmore, h⟩ := bind_ok h
    cases h
    rcases List.mem_append.mp hr with hr | hr
    · obtain ⟨hindex, hroom⟩ := annotationsIn_within (hall a List.mem_cons_self) hfound ref hr
      exact ⟨0, a, hindex, rfl, hroom⟩
    · obtain ⟨k, b, hindex, hb, hroom⟩ :=
        annotationsFrom_within (fun c hc => hall c (List.mem_cons_of_mem a hc)) hmore ref hr
      exact ⟨k + 1, b, by omega, hb, hroom⟩

theorem CodeEditor.Coherent.placed {pool : ConstantPool} {slack : Nat} {editor : CodeEditor}
    (h : editor.Coherent pool slack) : ∀ ref ∈ editor.typeAnnotations, ref.Placed editor.otherAttributes := by
  intro ref hr
  obtain ⟨k, a, hindex, ha, hroom⟩ := annotationsFrom_within
    (fun a ha => (h.others a ha).wellFormed) h.annotations ref hr
  rw [Nat.zero_add] at hindex
  exact ⟨a, by rw [hindex]; exact ha, hroom⟩

/-- With its bytes in place, a reference is written when its offsets fit. -/
theorem flushRef_iff {ref : TypeAnnotationRef} {attributes : List AttributeInfo} (hplaced : ref.Placed attributes) :
    (∃ written, flushRef ref attributes = (.ok (), written)) ↔ ref.Flushed := by
  constructor
  · rintro ⟨written, h⟩
    exact (flushRef_ok h).1
  · rintro ⟨hlow, hhigh, hspan⟩
    obtain ⟨a, ha, hroom⟩ := hplaced
    have hlength := a.attributeLength.toNat_lt
    unfold TypeAnnotationRef.width at hroom
    have hu4 : ¬u4 (ref.payloadOffset + if ref.kind = .span then 4 else 2) > a.attributeLength.toNat := by
      rw [u4, Nat.mod_eq_of_lt (by omega)]
      omega
    unfold flushRef
    rw [ha]
    dsimp only
    rw [if_neg hu4, if_neg (by unfold jvmMaxCodeLength; omega)]
    by_cases hkind : ref.kind = .instruction
    · rw [if_pos hkind]
      exact ⟨_, rfl⟩
    · have hkind' : ref.kind = .span := by
        cases hk : ref.kind with
        | span => rfl
        | instruction => exact absurd hk hkind
      obtain ⟨hle, hstop⟩ := hspan hkind'
      rw [if_neg hkind, if_neg (by unfold jvmMaxCodeLength; omega)]
      exact ⟨_, rfl⟩

theorem Placed.modify {ref : TypeAnnotationRef} {attributes : List AttributeInfo} (h : ref.Placed attributes)
    (index : Nat) (f : Bytes → Bytes) :
    ref.Placed (attributes.modify index fun a => { a with info := f a.info }) := by
  obtain ⟨a, ha, hroom⟩ := h
  rw [TypeAnnotationRef.Placed, List.getElem?_modify, ha]
  split
  · exact ⟨_, rfl, hroom⟩
  · exact ⟨_, rfl, hroom⟩

/-- The flush goes through exactly when every offset fits. -/
theorem typeAnnotationFlush_iff : ∀ {refs : List TypeAnnotationRef} {attributes : List AttributeInfo},
    (∀ ref ∈ refs, ref.Placed attributes) →
    ((∃ written, typeAnnotationFlush refs attributes = (.ok (), written)) ↔ ∀ ref ∈ refs, ref.Flushed)
  | [], attributes, _ => ⟨fun _ ref hr => (nomatch hr), fun _ => ⟨attributes, rfl⟩⟩
  | ref :: rest, attributes, hplaced => by
    constructor
    · rintro ⟨written, h⟩
      exact (typeAnnotationFlush_ok h).1
    · intro hflushed
      obtain ⟨next, hnext⟩ := (flushRef_iff (hplaced ref List.mem_cons_self)).mpr (hflushed ref List.mem_cons_self)
      have hrest : ∀ ref' ∈ rest, ref'.Placed next := by
        intro ref' hr
        rw [(flushRef_ok hnext).2]
        exact Placed.modify (hplaced ref' (List.mem_cons_of_mem ref hr)) _ _
      obtain ⟨written, hwritten⟩ :=
        (typeAnnotationFlush_iff hrest).mpr fun ref' hr => hflushed ref' (List.mem_cons_of_mem ref hr)
      refine ⟨written, ?_⟩
      rw [typeAnnotationFlush, hnext]
      exact hwritten

theorem placed_mapRefs {ref : TypeAnnotationRef} {attributes : List AttributeInfo} {pos ins : Int → Int} :
    (ref.mapRefs pos ins).Placed attributes ↔ ref.Placed attributes := by
  obtain ⟨index, offset, kind, start, stop⟩ := ref
  cases kind <;> exact Iff.rfl

/-! ## The insertion -/

/-- The checks that come before the first write: there is something to insert, the offset is a position of the code, the
stack has room, and every reference names a position. -/
structure InsertAccepted (editor : CodeEditor) (offset : Nat) (nodes : List Instruction)
    (extraStack : UInt16) : Prop where
  nodes : nodes ≠ []
  point : 0 ≤ offsetToIndex editor.instructions (wrapI4 offset)
  stack : editor.maxStack.toNat + extraStack.toNat ≤ 0xFFFF
  named : ∀ v ∈ editor.refs, 0 ≤ offsetToIndex editor.instructions v

/-- A type annotation with the places it names in the edited code. -/
def TypeAnnotationRef.moved (editor : CodeEditor) (at_ : Nat) (nodes : List Instruction) (ref : TypeAnnotationRef) :
    TypeAnnotationRef :=
  ref.mapRefs (moveRef editor at_ nodes (shiftAfter at_ nodes.length))
    (moveRef editor at_ nodes (shiftWith at_ nodes.length))

theorem placed_insertNodes {code : AttributeInfo} {pool : ConstantPool} {editor : CodeEditor}
    (hload : codeEditorLoad code pool = .ok editor) (at_ : Nat) (nodes : List Instruction) :
    ∀ ref ∈ (insertNodes editor at_ nodes).typeAnnotations,
      ref.Placed (insertNodes editor at_ nodes).otherAttributes := by
  intro ref hr
  rw [typeAnnotations_insertNodes] at hr
  obtain ⟨old, hold, rfl⟩ := List.mem_map.mp hr
  exact placed_mapRefs.mpr ((coherent_of_load hload).placed old hold)

theorem codeEditorInsert_refused {editor edited : CodeEditor} {offset : Nat} {nodes : List Instruction}
    {extraStack : UInt16} {status : Except ClassfileStatus Unit} (hnot : ¬InsertAccepted editor offset nodes extraStack)
    (h : codeEditorInsert editor offset nodes extraStack = (status, edited)) : edited = editor := by
  unfold codeEditorInsert at h
  split at h
  · exact (Prod.mk.inj h).2.symm
  rename_i hnodes
  dsimp only at h
  split at h
  · exact (Prod.mk.inj h).2.symm
  rename_i hpoint
  split at h
  · exact (Prod.mk.inj h).2.symm
  rename_i hstack
  split at h
  · exact (Prod.mk.inj h).2.symm
  rename_i hnamed
  rw [Bool.not_eq_false, List.all_eq_true] at hnamed
  exact absurd ⟨by simpa using hnodes, by omega, by omega, fun v hv => of_decide_eq_true (hnamed v hv)⟩ hnot

theorem codeEditorInsert_accepted {editor : CodeEditor} {offset : Nat} {nodes : List Instruction} {extraStack : UInt16}
    (h : InsertAccepted editor offset nodes extraStack) {at_ : Nat}
    (hat : offsetToIndex editor.instructions (wrapI4 offset) = at_) :
    codeEditorInsert editor offset nodes extraStack =
      match typeAnnotationFlush (insertNodes editor at_ nodes).typeAnnotations
          (insertNodes editor at_ nodes).otherAttributes with
      | (.error e, partly) => (.error e, { insertNodes editor at_ nodes with otherAttributes := partly })
      | (.ok _, written) => (.ok (), { insertNodes editor at_ nodes with
          otherAttributes := written, maxStack := (insertNodes editor at_ nodes).maxStack + extraStack }) := by
  have hnamed : ¬(editor.refs.all fun value => decide (0 ≤ offsetToIndex editor.instructions value)) = false := by
    rw [Bool.not_eq_false, List.all_eq_true]
    exact fun v hv => decide_eq_true (h.named v hv)
  have hpoint := h.point
  have hstack := h.stack
  unfold codeEditorInsert
  rw [if_neg (by simpa using h.nodes)]
  dsimp only
  rewrite [if_neg (by omega), if_neg (by omega), if_neg hnamed, hat, Int.toNat_natCast]
  cases typeAnnotationFlush (insertNodes editor at_ nodes).typeAnnotations
      (insertNodes editor at_ nodes).otherAttributes with
  | mk status written => cases status <;> rfl

/-- **Insertion, all or nothing.** A failed insertion into an editor that was loaded leaves it as it was exactly when
the insertion is refused by the checks, or all type annotations name places that still fit a `u2` behind it. -/
theorem insert_all_or_nothing_iff {code : AttributeInfo} {pool : ConstantPool} {editor : CodeEditor}
    (hload : codeEditorLoad code pool = .ok editor) (offset : Nat) (nodes : List Instruction) (extraStack : UInt16) :
    (∀ e, (codeEditorInsert editor offset nodes extraStack).1 = .error e →
      (codeEditorInsert editor offset nodes extraStack).2 = editor) ↔
    (InsertAccepted editor offset nodes extraStack → ∀ ref ∈ editor.typeAnnotations,
      (ref.moved editor (offsetToIndex editor.instructions (wrapI4 offset)).toNat nodes).Flushed) := by
  generalize hresult : codeEditorInsert editor offset nodes extraStack = result
  obtain ⟨status, edited⟩ := result
  by_cases haccepted : InsertAccepted editor offset nodes extraStack
  · have hat : offsetToIndex editor.instructions (wrapI4 offset) =
        (offsetToIndex editor.instructions (wrapI4 offset)).toNat := by
      have := haccepted.point
      omega
    generalize (offsetToIndex editor.instructions (wrapI4 offset)).toNat = at_ at hat ⊢
    have hflush := typeAnnotationFlush_iff (placed_insertNodes hload at_ nodes)
    have hmoved : (∀ ref ∈ (insertNodes editor at_ nodes).typeAnnotations, ref.Flushed) ↔
        ∀ ref ∈ editor.typeAnnotations, (ref.moved editor at_ nodes).Flushed := by
      rw [typeAnnotations_insertNodes, List.forall_mem_map]
      rfl
    rw [← hmoved, ← hflush]
    rw [codeEditorInsert_accepted haccepted hat] at hresult
    split at hresult
    · -- the nodes are in by now, so the code has grown
      rename_i e partly herror
      obtain ⟨rfl, rfl⟩ := Prod.mk.inj hresult
      constructor
      · intro hunchanged _
        have hsame := congrArg (fun edited : CodeEditor => edited.instructions.items.length) (hunchanged e rfl)
        have hlength := length_insertNodes editor at_ nodes
        have hpos := List.length_pos_iff.mpr haccepted.nodes
        dsimp only at hsame
        omega
      · intro hfits
        obtain ⟨written, hwritten⟩ := hfits haccepted
        rw [herror] at hwritten
        cases hwritten
    · rename_i written hwritten
      obtain ⟨rfl, rfl⟩ := Prod.mk.inj hresult
      exact ⟨fun _ _ => ⟨written, hwritten⟩, fun _ e he => (nomatch he)⟩
  · exact ⟨fun _ h => absurd h haccepted, fun _ _ _ => codeEditorInsert_refused haccepted hresult⟩

/-! ## A body with an annotated instruction -/

/-- `nop; return`, with a type annotation on the `return`. -/
def annotatedCode : AttributeInfo :=
  ⟨1, 30, [0, 1, 0, 1, 0, 0, 0, 2, 0, 177, 0, 0, 0, 1, 0, 2, 0, 0, 0, 10, 0, 1, 68, 0, 1, 0, 0, 3, 0, 0]⟩

def annotatedPool : ConstantPool :=
  ⟨[.utf8 (text "Code"), .utf8 (text "RuntimeVisibleTypeAnnotations"), .utf8 (text "LA;")]⟩

def annotatedEditor : CodeEditor where
  maxStack := 1
  maxLocals := 1
  instructions := ⟨[⟨0, Opc.nop, false, .none⟩, ⟨1, Opc.return_, false, .none⟩], 2⟩
  exceptions := []
  lineNumbers := none
  locals := none
  localTypes := none
  stackMap := none
  otherAttributes := [⟨2, 10, [0, 1, 68, 0, 1, 0, 0, 3, 0, 0]⟩]
  typeAnnotations := [⟨0, 3, .instruction, 1, 0⟩]

/-- A call that is refused for its stack leaves the editor alone. -/
theorem insert_all_or_nothing_refused : codeEditorLoad annotatedCode annotatedPool = .ok annotatedEditor ∧
    (codeEditorInsert annotatedEditor 0 forwardSeven 0xFFFF).1 = .error .limitExceeded ∧
    ∀ e, (codeEditorInsert annotatedEditor 0 forwardSeven 0xFFFF).1 = .error e →
      (codeEditorInsert annotatedEditor 0 forwardSeven 0xFFFF).2 = annotatedEditor := by
  have hload : codeEditorLoad annotatedCode annotatedPool = .ok annotatedEditor := by decide +kernel
  refine ⟨hload, by decide +kernel, (insert_all_or_nothing_iff hload 0 forwardSeven 0xFFFF).mpr fun haccepted => ?_⟩
  exact absurd haccepted.stack (by decide +kernel)

/-- Sixty-four times a `tableswitch` over 256 keys. -/
def manySwitches : List Instruction :=
  List.replicate 64 ⟨0, Opc.tableswitch, false, .tableSwitch 0 0 255 (List.replicate 256 0)⟩

/-- The switches move the annotated instruction behind the limit: the insertion fails with the switches already in. -/
theorem insert_fails_halfway : codeEditorLoad annotatedCode annotatedPool = .ok annotatedEditor ∧
    (codeEditorInsert annotatedEditor 0 manySwitches 0).1 = .error .codeTooLarge ∧
    (codeEditorInsert annotatedEditor 0 manySwitches 0).2 ≠ annotatedEditor := by
  refine ⟨by decide +kernel, by decide +kernel, fun hsame => ?_⟩
  have hlength : (codeEditorInsert annotatedEditor 0 manySwitches 0).2.instructions.items.length =
    66 := by decide +kernel
  rw [hsame] at hlength
  revert hlength
  decide +kernel

end Jni2Hook
