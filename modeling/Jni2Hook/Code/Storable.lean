import Jni2Hook.Code.AttributeCodecs
import Jni2Hook.Code.InsertionRoundTrip

/-!
# When an editor can be stored

* `instructionListEncode_iff`: code within the limit is encoded exactly when every branch reaches its target.
* `typeAnnotationFlush_same`: a flush goes through when one into the same places did and the new offsets fit.
* `codeEditorStore_same_iff`: an editor whose tables are as long as those of one that was stored can be stored exactly
  when the attribute is not too long.
-/

namespace Jni2Hook

open Lib

/-! ## Branches that reach their targets -/

/-- The distance to the target of a branch fits its field. -/
def Instruction.Reaches (node : Instruction) : Prop :=
  match node.operand with
  | .branch target => FitsI2 (target - node.offset)
  | .branchWide target => FitsI4 (target - node.offset)
  | _ => True

theorem encodeOperand_iff (node : Instruction) (offset m : Nat) :
    (∃ w, encodeOperand offset m node = .ok w) ↔ ({ node with offset := offset } : Instruction).Reaches := by
  obtain ⟨o, opcode, wide, operand⟩ := node
  cases operand with
  | branch target =>
    simp only [encodeOperand, Instruction.Reaches, FitsI2]
    split
    · refine ⟨fun h => ?_, fun h => by omega⟩
      obtain ⟨w, h⟩ := h
      cases h
    · exact ⟨fun _ => by omega, fun _ => ⟨_, rfl⟩⟩
  | branchWide target =>
    simp only [encodeOperand, Instruction.Reaches, FitsI4]
    split
    · refine ⟨fun h => ?_, fun h => by omega⟩
      obtain ⟨w, h⟩ := h
      cases h
    · exact ⟨fun _ => by omega, fun _ => ⟨_, rfl⟩⟩
  | _ => exact ⟨fun _ => trivial, fun _ => ⟨_, rfl⟩⟩

/-- The bytes of an operand that was encoded. -/
theorem length_encodeOperand {node : Instruction} (h : node.Encodable) {n : Nat} {w : Bytes}
    (hsize : node.size n ≤ jvmMaxCodeLength)
    (he : encodeOperand n (n + (encodeOpcode node).length) node = .ok w) :
    (encodeOpcode node).length + w.length = node.size n := by
  have hfits := h.fits
  have hwide := h.not_wide
  obtain ⟨o, opcode, wide, operand⟩ := node
  unfold Instruction.size at hsize ⊢
  dsimp only at hfits hsize he ⊢
  refine congrArg (_ + ·) ?_
  cases operand with
  | none => cases he; rfl
  | immediate value =>
    cases he
    simp only [Operand.size, Operand.kind, kindLength]
    split <;> rfl
  | local_ index =>
    cases he
    simp only [Operand.size]
    split <;> rfl
  | iinc index constant =>
    cases he
    simp only [Operand.size]
    split <;> rfl
  | constant index =>
    cases he
    simp only [Operand.size, Operand.kind, kindLength]
    split <;> rfl
  | cpIndex index => cases he; rfl
  | invokeInterface index count zero => cases he; rfl
  | invokeDynamic index zero => cases he; rfl
  | multianewarray index dimensions => cases he; rfl
  | branch target =>
    simp only [encodeOperand] at he
    split at he
    · cases he
    · cases he
      rfl
  | branchWide target =>
    simp only [encodeOperand] at he
    split at he
    · cases he
    · cases he
      rfl
  | tableSwitch defaultTarget low high targets =>
    cases he
    obtain ⟨-, -, -, hle, hlen, -⟩ := hfits
    simp only [Operand.size] at hsize ⊢
    unfold jvmMaxCodeLength at hsize
    have hall : instructionSwitchEntries (.tableSwitch defaultTarget low high targets) = targets.length := by
      rw [instructionSwitchEntries, if_neg (Int.not_lt.mpr hle), if_neg (by unfold jvmMaxCodeLength; omega)]
      omega
    have hwidth := @length_flatMap_write _ (fun t : Int => byteBufferU4 (u4OfInt (t - n))) 4
      (fun t => rfl) targets
    simp only [hall, List.take_length, List.length_append, List.length_replicate, length_byteBufferU4, hwidth]
    omega
  | lookupSwitch defaultTarget pairs =>
    cases he
    have hwidth := @length_flatMap_write _ (fun p : SwitchPair => byteBufferU4 (u4OfInt p.matchValue) ++
      byteBufferU4 (u4OfInt (p.target - n))) 8 (fun t => rfl) pairs
    simp only [Operand.size, List.length_append, List.length_replicate, length_byteBufferU4, hwidth]
    omega

theorem encodeFrom_iff : ∀ {n : Nat} {items : List Instruction}, (∀ node ∈ items, node.Encodable) →
    extent Instruction.size n items ≤ jvmMaxCodeLength →
    ((∃ bytes, encodeFrom n items = .ok bytes) ↔ ∀ node ∈ placeFrom n items, node.Reaches) ∧
      ∀ bytes, encodeFrom n items = .ok bytes → n + bytes.length = extent Instruction.size n items
  | n, [], _, _ => by
    refine ⟨⟨fun _ node hn => absurd hn List.not_mem_nil, fun _ => ⟨[], rfl⟩⟩, fun bytes h => ?_⟩
    cases h
    rfl
  | n, node :: rest, he, hx => by
    have hmax : jvmMaxCodeLength = 65535 := rfl
    have hle := @le_extent _ Instruction.size (n + node.size n) rest
    rw [extent_cons] at hx
    have hn : u4 n = n := u4_of_lt (by omega)
    obtain ⟨ih, hlen⟩ := encodeFrom_iff (n := n + node.size n) (fun x hmem => he x (List.mem_cons_of_mem node hmem)) hx
    have hhead := encodeOperand_iff node n (n + (encodeOpcode node).length)
    have hsize {w : Bytes} (hw : encodeOperand n (n + (encodeOpcode node).length) node = .ok w) :
        n + (encodeOpcode node).length + w.length = n + node.size n := by
      rw [← length_encodeOperand (he node List.mem_cons_self) (by omega) hw, Nat.add_assoc]
    -- both steps of the encoder, taken apart
    have step (bytes : Bytes) : encodeFrom n (node :: rest) = .ok bytes ↔ ∃ w tail,
        encodeOperand n (n + (encodeOpcode node).length) node = .ok w ∧ encodeFrom (n + node.size n) rest = .ok tail ∧
          bytes = encodeOpcode node ++ (w ++ tail) := by
      rw [encodeFrom, hn]
      constructor
      · intro h
        obtain ⟨w, hw, h⟩ := bind_ok h
        obtain ⟨tail, htail, h⟩ := bind_ok h
        cases h
        rw [hsize hw] at htail
        exact ⟨w, tail, hw, htail, rfl⟩
      · rintro ⟨w, tail, hw, htail, rfl⟩
        rw [← hsize hw] at htail
        rw [bind_of_ok hw, bind_of_ok htail]
        rfl
    refine ⟨?_, fun bytes h => ?_⟩
    · rw [placeFrom]
      constructor
      · rintro ⟨bytes, h⟩ x hmem
        obtain ⟨w, tail, hw, htail, -⟩ := (step bytes).mp h
        rcases List.mem_cons.mp hmem with rfl | hmem
        · exact hhead.mp ⟨w, hw⟩
        · exact ih.mp ⟨tail, htail⟩ x hmem
      · intro h
        obtain ⟨w, hw⟩ := hhead.mpr (h _ List.mem_cons_self)
        obtain ⟨tail, htail⟩ := ih.mpr fun x hmem => h x (List.mem_cons_of_mem _ hmem)
        exact ⟨_, (step _).mpr ⟨w, tail, hw, htail, rfl⟩⟩
    · obtain ⟨w, tail, hw, htail, rfl⟩ := (step bytes).mp h
      have h₁ := hlen tail htail
      have h₂ := hsize hw
      rw [extent_cons, ← h₁]
      simp only [List.length_append]
      omega

/-- Code within the limit is encoded exactly when every branch reaches its target. -/
theorem instructionListEncode_iff {list : InstructionList} (hl : list.Laid)
    (hcode : list.codeLength ≤ jvmMaxCodeLength) :
    (∃ bytes, instructionListEncode list = .ok bytes) ↔ ∀ node ∈ list.items, node.Reaches := by
  rw [← hl.stop] at hcode
  obtain ⟨hiff, hlen⟩ := encodeFrom_iff hl.encodable hcode
  rw [hl.placed] at hiff
  rw [← hiff]
  constructor
  · rintro ⟨bytes, h⟩
    exact ⟨bytes, (instructionListEncode_cases h).1⟩
  · rintro ⟨bytes, h⟩
    refine ⟨bytes, ?_⟩
    have := hlen bytes h
    rw [instructionListEncode, bind_of_ok h, if_neg (by omega)]
    rfl

/-! ## The flush -/

/-- The same place of an attribute, maybe with other offsets. -/
def SamePlace (ref ref' : TypeAnnotationRef) : Prop :=
  ref'.attributeIndex = ref.attributeIndex ∧ ref'.payloadOffset = ref.payloadOffset ∧ ref'.kind = ref.kind

theorem flushRef_same {ref ref' : TypeAnnotationRef} (hplace : SamePlace ref ref') (hflushed : ref'.Flushed)
    {attributes attributes' written : List AttributeInfo}
    (hlengths : attributes'.map AttributeInfo.attributeLength = attributes.map AttributeInfo.attributeLength)
    (h : flushRef ref attributes = (.ok (), written)) :
    ∃ written', flushRef ref' attributes' = (.ok (), written') ∧
      written'.map AttributeInfo.attributeLength = written.map AttributeInfo.attributeLength := by
  obtain ⟨hindex, hoffset, hkind⟩ := hplace
  have kept (l : List AttributeInfo) (i : Nat) (f : AttributeInfo → Bytes) :
      (l.modify i fun a => { a with info := f a }).map AttributeInfo.attributeLength =
        l.map AttributeInfo.attributeLength := by
    apply List.ext_getElem?
    intro k
    rw [List.getElem?_map, List.getElem?_modify, List.getElem?_map]
    cases l[k]? with
    | none => rfl
    | some a =>
      split <;> rfl
  obtain ⟨-, hwritten⟩ := flushRef_ok h
  rw [hwritten, kept, ← hlengths]
  unfold flushRef at h
  cases ha : attributes[ref.attributeIndex]? with
  | none =>
    rw [ha] at h
    cases h
  | some a =>
    obtain ⟨a', ha', hlength⟩ : ∃ a', attributes'[ref'.attributeIndex]? = some a' ∧
        a'.attributeLength = a.attributeLength := by
      have := congrArg (·[ref.attributeIndex]?) hlengths
      simp only [List.getElem?_map, ha, Option.map_some] at this
      rw [hindex]
      exact Option.map_eq_some_iff.mp this
    rw [ha] at h
    dsimp only at h
    by_cases hroom : u4 (ref.payloadOffset + if ref.kind = .span then 4 else 2) > a.attributeLength.toNat
    · rw [if_pos hroom] at h
      cases h
    obtain ⟨hlow, hhigh, hspan⟩ := hflushed
    have hstart : ¬(ref'.start < 0 ∨ ref'.start > jvmMaxCodeLength) := by
      unfold jvmMaxCodeLength
      omega
    unfold flushRef
    rw [ha']
    dsimp only
    rw [hoffset, hkind, hlength, if_neg hroom, if_neg hstart]
    by_cases hinstruction : ref.kind = .instruction
    · rw [if_pos hinstruction]
      exact ⟨_, rfl, kept _ _ _⟩
    · have hkind' : ref'.kind = .span := by
        rw [hkind]
        cases hk : ref.kind with
        | instruction => exact absurd hk hinstruction
        | span => rfl
      have hstop : ¬(ref'.stop < ref'.start ∨ ref'.stop > jvmMaxCodeLength) := by
        have := hspan hkind'
        unfold jvmMaxCodeLength
        omega
      rw [if_neg hinstruction, if_neg hstop]
      exact ⟨_, rfl, kept _ _ _⟩

/-- A flush goes through when one into the same places did and the new offsets fit. -/
theorem typeAnnotationFlush_same {refs refs' : List TypeAnnotationRef}
    {attributes attributes' written : List AttributeInfo}
    (hplaces : List.Forall₂ SamePlace refs refs') (hflushed : ∀ ref ∈ refs', ref.Flushed)
    (hlengths : attributes'.map AttributeInfo.attributeLength = attributes.map AttributeInfo.attributeLength)
    (h : typeAnnotationFlush refs attributes = (.ok (), written)) :
    ∃ written', typeAnnotationFlush refs' attributes' = (.ok (), written') := by
  induction hplaces generalizing attributes attributes' with
  | nil => exact ⟨attributes', rfl⟩
  | @cons ref ref' rest rest' hplace hrest ih =>
    rw [typeAnnotationFlush] at h
    split at h
    · cases h
    · rename_i x next hnext
      obtain ⟨next', hnext', hlengths'⟩ := flushRef_same hplace (hflushed ref' List.mem_cons_self) hlengths hnext
      rw [typeAnnotationFlush, hnext']
      exact ih (fun r hr => hflushed r (List.mem_cons_of_mem ref' hr)) hlengths' h

/-! ## The attributes -/

/-- The bytes of an attribute when it is written. -/
def AttributeInfo.room (a : AttributeInfo) : Nat := (writeAttribute a).length

theorem room_eq (a : AttributeInfo) : a.room = 6 + min a.attributeLength.toNat a.info.length := by
  simp only [AttributeInfo.room, writeAttribute, byteBufferBytes, List.length_append, length_byteBufferU2,
    length_byteBufferU4, List.length_take]
  omega

theorem room_attributeInfoOf {payload payload' : Bytes} (h : payload'.length = payload.length)
    (nameIndex nameIndex' : UInt16) :
    (attributeInfoOf nameIndex' payload').room = (attributeInfoOf nameIndex payload).room := by
  simp only [room_eq, attributeInfoOf, h]

/-- Attributes that take the same room one by one. -/
def SameRoom (attributes attributes' : List AttributeInfo) : Prop :=
  attributes'.map AttributeInfo.room = attributes.map AttributeInfo.room

theorem SameRoom.length_eq {attributes attributes' : List AttributeInfo} (h : SameRoom attributes attributes') :
    attributes'.length = attributes.length := by
  simpa using congrArg List.length h

theorem SameRoom.snoc {attributes attributes' : List AttributeInfo} (h : SameRoom attributes attributes')
    {a a' : AttributeInfo} (ha : a'.room = a.room) : SameRoom (attributes ++ [a]) (attributes' ++ [a']) := by
  rw [SameRoom, List.map_append, List.map_append, h, List.map_singleton, List.map_singleton, ha]

/-- Tables of the same length, or none. -/
def SameLength {α : Type} (table table' : Option (NamedTable α)) : Prop :=
  table'.map (·.entries.length) = table.map (·.entries.length)

theorem storeTable_same {α : Type} {write : α → Bytes} {width : Nat} (hwidth : ∀ e, (write e).length = width)
    {table table' : Option (NamedTable α)} (htable : SameLength table table')
    {attributes attributes' stored : List AttributeInfo}
    (hroom : SameRoom attributes attributes') (h : storeTable write table attributes = .ok stored) :
    ∃ stored', storeTable write table' attributes' = .ok stored' ∧ SameRoom stored stored' := by
  cases table with
  | none =>
    obtain rfl : table' = none := Option.map_eq_none_iff.mp htable
    cases h
    exact ⟨attributes', rfl, hroom⟩
  | some t =>
    obtain ⟨t', rfl, hlength⟩ := Option.map_eq_some_iff.mp htable
    have hbytes : (writeTable write t'.entries).length = (writeTable write t.entries).length := by
      simp only [writeTable, List.length_append, length_byteBufferU2, length_flatMap_write hwidth, hlength]
    rw [storeTable] at h
    split at h
    · cases h
    · rename_i hcount
      obtain ⟨a, ha, hpure⟩ := bind_ok h
      cases hpure
      rw [takeBuffer] at ha
      split at ha
      · cases ha
      · rename_i hlimit
        cases ha
        refine ⟨_, ?_, hroom.snoc (room_attributeInfoOf hbytes t.nameIndex t'.nameIndex)⟩
        rw [storeTable, hroom.length_eq, if_neg hcount, takeBuffer, hbytes, if_neg hlimit]
        rfl

/-- Tables of frames that are written with the same number of bytes, or none. -/
def SameFrameBytes (table table' : Option (NamedTable StackMapFrame)) : Prop :=
  (table = none ∧ table' = none) ∨ ∃ t t' w w', table = some t ∧ table' = some t' ∧ writeFrames none t.entries = .ok w ∧
    writeFrames none t'.entries = .ok w' ∧ w'.length = w.length

theorem storeStackMap_same {table table' : Option (NamedTable StackMapFrame)} (htable : SameFrameBytes table table')
    {attributes attributes' stored : List AttributeInfo} (hroom : SameRoom attributes attributes')
    (h : storeStackMap table attributes = .ok stored) :
    ∃ stored', storeStackMap table' attributes' = .ok stored' ∧ SameRoom stored stored' := by
  obtain ⟨rfl, rfl⟩ | ⟨t, t', w, w', rfl, rfl, hw, hw', hlength⟩ := htable
  · cases h
    exact ⟨attributes', rfl, hroom⟩
  · rw [storeStackMap] at h
    split at h
    · cases h
    · rename_i hcount
      rw [stackMapTableWrite, hw] at h
      cases h
      have hbytes : (byteBufferU2 (UInt16.ofNat t'.entries.length) ++ w').length =
          (byteBufferU2 (UInt16.ofNat t.entries.length) ++ w).length := by
        simp only [List.length_append, length_byteBufferU2, hlength]
      refine ⟨_, ?_, hroom.snoc (room_attributeInfoOf hbytes t.nameIndex t'.nameIndex)⟩
      rw [storeStackMap, hroom.length_eq, if_neg hcount, stackMapTableWrite, hw']
      rfl

theorem storeOthers_same : ∀ {others others' attributes attributes' stored : List AttributeInfo},
    SameRoom others others' → SameRoom attributes attributes' → storeOthers others attributes = .ok stored →
    ∃ stored', storeOthers others' attributes' = .ok stored' ∧ SameRoom stored stored'
  | [], [], _, attributes', _, _, hroom, h => by
    cases h
    exact ⟨attributes', rfl, hroom⟩
  | [], a' :: rest', _, _, _, hothers, _, _ => by cases hothers.length_eq
  | a :: rest, [], _, _, _, hothers, _, _ => by cases hothers.length_eq
  | a :: rest, a' :: rest', attributes, attributes', stored, hothers, hroom, h => by
    obtain ⟨ha, hrest⟩ := List.cons.inj hothers
    obtain ⟨next, hnext, h⟩ := bind_ok h
    obtain ⟨rfl, hcount⟩ := listAppend_ok hnext
    have hcopy (b : AttributeInfo) : AttributeInfo.room ⟨b.attributeNameIndex, b.attributeLength, b.payload⟩ = b.room :=
      congrArg List.length (writeAttribute_cut b)
    obtain ⟨stored', hstored, hsame⟩ := storeOthers_same hrest
      (hroom.snoc ((hcopy a').trans (ha.trans (hcopy a).symm))) h
    refine ⟨stored', ?_, hsame⟩
    rw [storeOthers, listAppend, hroom.length_eq, if_neg hcount]
    exact hstored

/-- An editor whose tables take as much room as those of another one. -/
structure SameTables (editor editor' : CodeEditor) : Prop where
  exceptions : editor'.exceptions.length = editor.exceptions.length
  lineNumbers : SameLength editor.lineNumbers editor'.lineNumbers
  locals : SameLength editor.locals editor'.locals
  localTypes : SameLength editor.localTypes editor'.localTypes
  stackMap : SameFrameBytes editor.stackMap editor'.stackMap
  others : SameRoom editor.otherAttributes editor'.otherAttributes

theorem SameTables.storeAttributes {editor editor' : CodeEditor} (hsame : SameTables editor editor')
    {attributes : List AttributeInfo} (h : storeAttributes editor = .ok attributes) :
    ∃ attributes', Jni2Hook.storeAttributes editor' = .ok attributes' ∧ SameRoom attributes attributes' := by
  obtain ⟨l₁, s₁, k₁⟩ := bind_ok h
  obtain ⟨l₂, s₂, k₂⟩ := bind_ok k₁
  obtain ⟨l₃, s₃, k₃⟩ := bind_ok k₂
  obtain ⟨l₄, s₄, s₅⟩ := bind_ok k₃
  obtain ⟨l₁', s₁', r₁⟩ := @storeTable_same _ _ 4 (fun e => rfl) _ _ hsame.lineNumbers _ [] _ rfl s₁
  obtain ⟨l₂', s₂', r₂⟩ := @storeTable_same _ _ 10 (fun e => rfl) _ _ hsame.locals _ _ _ r₁ s₂
  obtain ⟨l₃', s₃', r₃⟩ := @storeTable_same _ _ 10 (fun e => rfl) _ _ hsame.localTypes _ _ _ r₂ s₃
  obtain ⟨l₄', s₄', r₄⟩ := storeStackMap_same hsame.stackMap r₃ s₄
  obtain ⟨l₅', s₅', r₅⟩ := storeOthers_same hsame.others r₄ s₅
  refine ⟨l₅', ?_, r₅⟩
  rw [Jni2Hook.storeAttributes, bind_of_ok s₁', bind_of_ok s₂', bind_of_ok s₃', bind_of_ok s₄']
  exact s₅'

theorem length_encodeCode (code : CodeAttribute) : (encodeCodeAttribute code).length =
    12 + code.code.length + 8 * code.exceptions.length + (code.attributes.map AttributeInfo.room).sum := by
  have hentries := @length_flatMap_write _ writeExceptionEntry 8 (fun e => rfl) code.exceptions
  have hattributes : (code.attributes.flatMap writeAttribute).length = (code.attributes.map AttributeInfo.room).sum :=
    List.length_flatMap
  simp only [encodeCodeAttribute, List.length_append, length_byteBufferU2, length_byteBufferU4, hentries, hattributes]
  omega

/-- An editor with other code, whose tables take as much room as those of an editor that was stored, is stored exactly
when the attribute is not too long. -/
theorem codeEditorStore_same_iff {editor editor' : CodeEditor} (hsame : SameTables editor editor')
    {code stored : AttributeInfo} {bytes bytes' : Bytes} (h : codeEditorStore editor code = .ok stored)
    (hbytes : instructionListEncode editor.instructions = .ok bytes)
    (hbytes' : instructionListEncode editor'.instructions = .ok bytes') :
    (∃ stored', codeEditorStore editor' code = .ok stored') ↔
      stored.attributeLength.toNat + bytes'.length ≤ 0xFFFFFFFF + bytes.length := by
  obtain ⟨bytecode, hb, h₁⟩ := bind_ok h
  obtain rfl : bytecode = bytes := Except.ok.inj (hb.symm.trans hbytes)
  obtain ⟨attributes, hattrs, h₂⟩ := bind_ok h₁
  obtain ⟨rfl, hw⟩ := takeBuffer_ok h₂
  obtain ⟨attributes', hattrs', hroom⟩ := hsame.storeAttributes hattrs
  have hlength := length_encodeCode ⟨editor.maxStack, editor.maxLocals, bytecode, editor.exceptions, attributes⟩
  have hlength' := length_encodeCode ⟨editor'.maxStack, editor'.maxLocals, bytes', editor'.exceptions, attributes'⟩
  rw [AttributeInfo.WellFormed] at hw
  have hinfo : (attributeInfoOf code.attributeNameIndex (encodeCodeAttribute
      ⟨editor.maxStack, editor.maxLocals, bytecode, editor.exceptions, attributes⟩)).info.length =
      (encodeCodeAttribute ⟨editor.maxStack, editor.maxLocals, bytecode, editor.exceptions, attributes⟩).length := rfl
  dsimp only at hlength hlength'
  rw [SameRoom] at hroom
  rw [hroom, hsame.exceptions] at hlength'
  rw [codeEditorStore, bind_of_ok hbytes', bind_of_ok hattrs', codeAttributeWrite, takeBuffer, hw, hinfo,
    hlength, hlength']
  constructor
  · rintro ⟨stored', hstored⟩
    split at hstored
    · cases hstored
    · omega
  · intro hle
    rw [if_neg (by omega)]
    exact ⟨_, rfl⟩

end Jni2Hook
